/-
The curve has `cofactor * groupOrder` points.

No bound on the count is borrowed. The curve over an x-coordinate and its twist over a fixed multiple of it have two points
together, so the two counts add up to twice the number of coordinates and the two identities. On each of the two a point is
found whose order many known primes divide. That leaves one count below the sum.

- `curve.card_add_card_twist`: the sum of the two counts.
- `order_dvd_card`, `exists_prime_dvd_card`: what divides a count, from multiples of one point that the kernel evaluates.
- `card_curvePoint`: the count.
- `nsmul_groupOrder_cofactor`, `exists_nsmul_eq`: so the group order annihilates every multiple by the cofactor, and of the
  points that it annihilates each one but the identity generates all.
-/
import Mathlib.NumberTheory.LegendreSymbol.QuadraticChar.Basic
import Mathlib.Tactic.NormNum.LegendreSymbol
import Mathlib.GroupTheory.Coset.Card
import DistributedKey.Proofs.Curve.GroupLaw

namespace DistributedKey

open Coordinate Residue WeierstrassCurve.Affine

namespace curve

variable {K : Type} [Field K] [Fintype K] [CharP K coordinateModulus]

/-! ## the curve and its twist together -/

theorem card_eq {b : K} (hb : b ≠ 0) :
    Nat.card (curve b).Point = ∑ x : K, Nat.card {y : K // y * y = x * x * x + b} + 1 := by
  have hpairs : {xy : K × K // (curve b).Nonsingular xy.1 xy.2} ≃ Σ x : K, {y : K // y * y = x * x * x + b} :=
    (Equiv.subtypeProdEquivSigmaSubtype fun x y => (curve b).Nonsingular x y).trans
      (Equiv.sigmaCongrRight fun x => Equiv.subtypeEquivRight (nonsingular_iff hb x))
  rw [Nat.card_congr (nonsingularPointEquiv (curve b)), ← Nat.card_sigma, ← Nat.card_congr hpairs]
  exact Finite.card_option

variable [DecidableEq K]

theorem card_roots (a : K) : (Nat.card {y : K // y * y = a} : Int) = quadraticChar K a + 1 := by
  have hchar : ringChar K ≠ 2 := by
    rw [ringChar.eq K coordinateModulus]
    decide
  rw [← quadraticChar_card_sqrts hchar, Set.toFinset_card, ← Nat.card_eq_fintype_card]
  simp only [← sq]
  rfl

/-- one of `a` and `d³ a` has two roots and the other none, or both have one -/
theorem card_roots_add_twist {d : K} (hd : ¬IsSquare d) (a : K) :
    Nat.card {y : K // y * y = a} + Nat.card {y : K // y * y = d ^ 3 * a} = 2 := by
  have hchar := quadraticChar_neg_one_iff_not_isSquare.2 hd
  have hsum : (Nat.card {y : K // y * y = a} : Int) + Nat.card {y : K // y * y = d ^ 3 * a} = 2 := by
    rw [card_roots, card_roots, map_mul, map_pow, hchar]
    ring
  exact_mod_cast hsum

theorem card_add_card_twist {d : K} (hd : ¬IsSquare d) :
    Nat.card (curve (1 : K)).Point + Nat.card (curve (d ^ 3)).Point = 2 * Fintype.card K + 2 := by
  have hd0 : d ≠ 0 := fun h => hd (h ▸ IsSquare.zero)
  -- over the abscissa `d x` the twist has what the curve lacks over `x`
  have hscaled : ∑ x : K, Nat.card {y : K // y * y = x * x * x + d ^ 3} =
      ∑ x : K, Nat.card {y : K // y * y = d ^ 3 * (x * x * x + 1)} := by
    refine (Fintype.sum_equiv (Equiv.mulLeft₀ d hd0) _ _ fun x => ?_).symm
    rw [Equiv.mulLeft₀_apply, show d * x * (d * x) * (d * x) + d ^ 3 = d ^ 3 * (x * x * x + 1) by ring]
  have htwo : ∑ x : K, (Nat.card {y : K // y * y = x * x * x + 1} + Nat.card {y : K // y * y = d ^ 3 * (x * x * x + 1)}) =
      2 * Fintype.card K := by
    rw [Finset.sum_congr rfl fun x _ => card_roots_add_twist hd (x * x * x + 1), Finset.sum_const, Finset.card_univ,
      smul_eq_mul, mul_comm]
  rw [card_eq one_ne_zero, card_eq (pow_ne_zero 3 hd0), hscaled, ← htwo, Finset.sum_add_distrib]
  ring

end curve

namespace Point

/-! ## orders -/

section

variable {b : ZMod coordinateModulus} {x y : Coordinate}

theorem multiple_affine_eq_identity (hxy : (curve b).Nonsingular (toField _ x) (toField _ y)) (k : Nat) :
    multiple k (.affine x y) = .identity ↔ k • (.some _ _ hxy : (curve b).Point) = 0 := by
  have hmultiple := multiple_ofCurve k (.some _ _ hxy : (curve b).Point)
  rw [ofCurve_some] at hmultiple
  rw [hmultiple, ofCurve_eq_identity]

/-- an order from the primes that it is the product of -/
theorem order_dvd_card (hxy : (curve b).Nonsingular (toField _ x) (toField _ y)) {n : Nat} {factors : List Nat}
    (hfactors : ∀ q ∈ factors, q.Prime) (hprod : factors.prod = n) (hzero : multiple n (.affine x y) = .identity)
    (hne : ∀ q ∈ factors, multiple (n / q) (.affine x y) ≠ .identity) : n ∣ Nat.card (curve b).Point := by
  have hpos : 0 < n := hprod ▸ Nat.pos_of_ne_zero (List.prod_ne_zero fun h => (hfactors 0 h).ne_zero rfl)
  have horder : addOrderOf (.some _ _ hxy : (curve b).Point) = n := by
    refine addOrderOf_eq_of_nsmul_and_div_prime_nsmul hpos ((multiple_affine_eq_identity hxy n).1 hzero) ?_
    intro q hq hdvd
    have hmem := mem_list_primes_of_dvd_prod hq.prime (fun f hf => (hfactors f hf).prime) (hprod ▸ hdvd)
    exact mt (multiple_affine_eq_identity hxy _).2 (hne q hmem)
  exact horder ▸ addOrderOf_dvd_natCard _

/-- a prime of an order, of which it is only known what it divides -/
theorem exists_prime_dvd_card (hxy : (curve b).Nonsingular (toField _ x) (toField _ y)) {k m : Nat}
    (hzero : multiple (k * m) (.affine x y) = .identity) (hne : multiple k (.affine x y) ≠ .identity) :
    ∃ p, p.Prime ∧ p ∣ m ∧ p ∣ Nat.card (curve b).Point := by
  rw [multiple_affine_eq_identity hxy, ← addOrderOf_dvd_iff_nsmul_eq_zero] at hzero
  rw [Ne, multiple_affine_eq_identity hxy, ← addOrderOf_dvd_iff_nsmul_eq_zero] at hne
  have hcommon : ¬Nat.Coprime (addOrderOf (.some _ _ hxy : (curve b).Point)) m := fun hcoprime =>
    hne (hcoprime.dvd_of_dvd_mul_right hzero)
  obtain ⟨p, hp, hporder, hpm⟩ := Nat.Prime.not_coprime_iff_dvd.1 hcommon
  exact ⟨p, hp, hpm, hporder.trans (addOrderOf_dvd_natCard _)⟩

end

/-! ## points of the curve -/

theorem onCurve_inSubgroup_generator : generator.onCurve ∧ generator.inSubgroup := by decide +kernel

theorem groupOrder_dvd_card : groupOrder ∣ Nat.card CurvePoint := by
  obtain ⟨P, hP⟩ := onCurve_iff.1 onCurve_inSubgroup_generator.1
  have : Fact groupOrder.Prime := ⟨prime_groupOrder⟩
  have hzero : groupOrder • P = 0 := by
    rw [← ofCurve_eq_identity, ← multiple_ofCurve, hP]
    exact of_decide_eq_true onCurve_inSubgroup_generator.2
  have hne : P ≠ 0 := by
    rintro rfl
    cases hP
  exact addOrderOf_eq_prime hzero hne ▸ addOrderOf_dvd_natCard P

/-- the largest order of a point that the cofactor annihilates: one less than the parameter of the curve -/
def cofactorExponent : Nat := 9586122913090633728

theorem cofactorExponent_dvd_card : cofactorExponent ∣ Nat.card CurvePoint := by
  set x : Coordinate :=
    58197422964791846417088638910038348383985267882916906048158004777681819572159564524384032432433104771301040127340
    with hx
  set y : Coordinate :=
    149980802087111717379944569004787058475878128966041459249607942725691272394514751354299305120741222589556930049251
    with hy
  have hfactors : ∀ q ∈ List.replicate 46 2 ++ [3, 7, 13, 499], Nat.Prime q := by
    simp only [List.forall_mem_append, List.forall_mem_replicate, List.forall_mem_cons]
    norm_num
  have hne : ∀ q ∈ List.replicate 46 2 ++ [3, 7, 13, 499], multiple (cofactorExponent / q) (.affine x y) ≠ .identity := by
    rw [List.forall_mem_append, List.forall_mem_replicate]
    exact ⟨.inr (by decide +kernel), by decide +kernel⟩
  exact order_dvd_card (nonsingular_of_mul_self (by decide +kernel)) hfactors (by decide +kernel) (by decide +kernel) hne

/-! ## points of the twist by 5 -/

theorem toField_five : toField (ZMod coordinateModulus) 5 = 5 := by
  change ((5 : Nat) : ZMod coordinateModulus) = 5
  exact Nat.cast_ofNat

theorem not_isSquare_five : ¬IsSquare (5 : ZMod coordinateModulus) := by
  have hjacobi : jacobiSym 5 coordinateModulus = -1 := by norm_num [coordinateModulus]
  exact_mod_cast ZMod.nonsquare_of_jacobiSym_eq_neg_one hjacobi

theorem nonsingular_twist {x y : Coordinate} (h : y * y = x * x * x + 5 * 5 * 5) :
    (curve (5 ^ 3 : ZMod coordinateModulus)).Nonsingular (toField _ x) (toField _ y) := by
  have h5 : (5 : ZMod coordinateModulus) ≠ 0 := fun h5 => not_isSquare_five (h5 ▸ IsSquare.zero)
  rw [curve.nonsingular_iff (pow_ne_zero 3 h5), ← toField_mul, h]
  simp only [toField_add, toField_mul, toField_five]
  ring

/-- a factor of what the number of points of the twist is, if that of the curve is as claimed -/
def twistFactor : Nat :=
  413632770893916817533041976139515171610676795568091143714994311434146216743862333892438911037666941042992721

instance : Modulus twistFactor := ⟨by decide⟩

/-- the primes of the factor need not be known, as they are large -/
theorem lt_of_prime_dvd_twistFactor {p : Nat} (hp : p.Prime) (hdvd : p ∣ twistFactor) : 1480578019058640 < p := by
  have hfactors : ∀ q ∈ [2, 2, 2, 2, 3, 5, 37, 61, 739, 3698657], Nat.Prime q := by
    simp only [List.forall_mem_cons]
    norm_num
  have hd : 1480578019058640 ∣ p - 1 :=
    dvd_sub_one_of_pow_coprime ((twistFactor - 1) / 1480578019058640) (7 : Fin twistFactor) hfactors (by norm_num)
      (by decide +kernel) (by decide +kernel) hp hdvd
  have hle := Nat.le_of_dvd (Nat.sub_pos_of_lt hp.one_lt) hd
  omega

theorem exists_prime_dvd_card_twist :
    ∃ p, p.Prime ∧ p ∣ twistFactor ∧ p ∣ Nat.card (curve (5 ^ 3 : ZMod coordinateModulus)).Point := by
  set y : Coordinate :=
    124446522171278777374239236647760565479356663378830635692781364356801392371672358460786386486670109645960010664653
    with hy
  have hxy := nonsingular_twist (show y * y = 1 * 1 * 1 + 5 * 5 * 5 by decide +kernel)
  have hzero : multiple (4 * 127 * 1231 * twistFactor) (.affine 1 y) = .identity := by decide +kernel
  exact exists_prime_dvd_card hxy hzero (by decide +kernel)

theorem small_dvd_card_twist : 127 * 1231 ∣ Nat.card (curve (5 ^ 3 : ZMod coordinateModulus)).Point := by
  set x : Coordinate :=
    213597780628893082323223994313683917037804532337465682533951155543688709075446537353304656942206442514787610254828
    with hx
  set y : Coordinate :=
    207096661456130110557798152799292130057580695460017787564782703586887228527188217831163854410446955071659086763347
    with hy
  have hfactors : ∀ q ∈ [127, 1231], Nat.Prime q := by
    simp only [List.forall_mem_cons]
    norm_num
  exact order_dvd_card (nonsingular_twist (by decide +kernel : y * y = x * x * x + 5 * 5 * 5)) hfactors (by norm_num)
    (by decide +kernel) (by decide +kernel)

/-! ## the count -/

/-- **The curve has `cofactor * groupOrder` points.** -/
theorem card_curvePoint : Nat.card CurvePoint = cofactor * groupOrder := by
  obtain ⟨p, hp, hfactor, htwist⟩ := exists_prime_dvd_card_twist
  have hlarge := lt_of_prime_dvd_twistFactor hp hfactor
  have hsum : Nat.card CurvePoint + Nat.card (curve (5 ^ 3 : ZMod coordinateModulus)).Point = 2 * coordinateModulus + 2 := by
    rw [curve.card_add_card_twist not_isSquare_five, ZMod.card]
  have hclaimed : cofactor * groupOrder + 4 * 127 * 1231 * twistFactor = 2 * coordinateModulus + 2 := by
    norm_num [cofactor, groupOrder, twistFactor, coordinateModulus]
  -- the count and the claim agree modulo what divides both counts, and below their sum only one number does
  have hmodCurve : Nat.card CurvePoint ≡ cofactor * groupOrder [MOD cofactorExponent * groupOrder] := by
    have hcoprime : Nat.Coprime cofactorExponent groupOrder := by norm_num [cofactorExponent, groupOrder]
    have hcurve := hcoprime.mul_dvd_of_dvd_of_dvd cofactorExponent_dvd_card groupOrder_dvd_card
    have hdvd : cofactorExponent * groupOrder ∣ cofactor * groupOrder := by
      norm_num [cofactorExponent, groupOrder, cofactor]
    exact (Nat.modEq_zero_iff_dvd.2 hcurve).trans (Nat.modEq_zero_iff_dvd.2 hdvd).symm
  have hmodTwist : Nat.card CurvePoint ≡ cofactor * groupOrder [MOD 127 * 1231 * p] := by
    have hcoprime : Nat.Coprime (127 * 1231) p := by
      refine (hp.coprime_iff_not_dvd.2 fun hdvd => ?_).symm
      have hle := Nat.le_of_dvd (by norm_num) hdvd
      omega
    have htwist' := hcoprime.mul_dvd_of_dvd_of_dvd small_dvd_card_twist htwist
    have hdvd : 127 * 1231 * p ∣ 4 * 127 * 1231 * twistFactor := mul_dvd_mul (by norm_num) hfactor
    have hzero := (Nat.modEq_zero_iff_dvd.2 htwist').trans (Nat.modEq_zero_iff_dvd.2 hdvd).symm
    exact Nat.ModEq.add_right_cancel hzero (by rw [hsum, hclaimed])
  have hcoprime : Nat.Coprime (cofactorExponent * groupOrder) (127 * 1231 * p) := by
    have hsmall : Nat.Coprime (cofactorExponent * groupOrder) (127 * 1231) := by norm_num [cofactorExponent, groupOrder]
    have hfactors : Nat.Coprime (cofactorExponent * groupOrder) twistFactor := by
      norm_num [cofactorExponent, groupOrder, twistFactor]
    exact hsmall.mul_right (hfactors.coprime_dvd_right hfactor)
  have hbound : 2 * coordinateModulus + 2 < cofactorExponent * groupOrder * (127 * 1231 * p) :=
    calc 2 * coordinateModulus + 2 < cofactorExponent * groupOrder * (127 * 1231 * 1480578019058640) := by
          norm_num [cofactorExponent, groupOrder, coordinateModulus]
      _ ≤ cofactorExponent * groupOrder * (127 * 1231 * p) := by gcongr
  have hmod := (Nat.modEq_and_modEq_iff_modEq_mul hcoprime).1 ⟨hmodCurve, hmodTwist⟩
  exact hmod.eq_of_lt_of_lt (by omega) (by omega)

/-! ## the group that the group order annihilates -/

/-- clearing the cofactor leaves the small orders behind -/
theorem nsmul_groupOrder_cofactor (P : CurvePoint) : groupOrder • cofactor • P = 0 := by
  rw [← mul_nsmul, ← card_curvePoint]
  exact card_nsmul_eq_zero'

theorem coprime_groupOrder_cofactor : Nat.Coprime groupOrder cofactor := by norm_num [groupOrder, cofactor]

/-- **Every point that the group order annihilates, but the identity, generates all of them.** -/
theorem exists_nsmul_eq {P Q : CurvePoint} (hP : groupOrder • P = 0) (hne : P ≠ 0)
    (hQ : groupOrder • Q = 0) : ∃ k < groupOrder, k • P = Q := by
  have : Fact groupOrder.Prime := ⟨prime_groupOrder⟩
  have horder : addOrderOf P = groupOrder := addOrderOf_eq_prime hP hne
  -- modulo the multiples of `P` there are `cofactor` classes, and `Q` is in a class that the group order annihilates
  have hindex : Nat.card (CurvePoint ⧸ AddSubgroup.zmultiples P) = cofactor := by
    have hcard := AddSubgroup.card_eq_card_quotient_mul_card_addSubgroup (AddSubgroup.zmultiples P)
    rw [card_curvePoint, Nat.card_zmultiples, horder] at hcard
    exact (Nat.eq_of_mul_eq_mul_right prime_groupOrder.pos hcard).symm
  have hclass : (QuotientAddGroup.mk Q : _ ⧸ AddSubgroup.zmultiples P) = 0 := by
    rw [← AddMonoid.addOrderOf_eq_one_iff]
    refine Nat.eq_one_of_dvd_coprimes coprime_groupOrder_cofactor ?_ ?_
    · rw [addOrderOf_dvd_iff_nsmul_eq_zero, ← QuotientAddGroup.mk_nsmul, hQ, QuotientAddGroup.mk_zero]
    · rw [← hindex]
      exact addOrderOf_dvd_natCard _
  have hmem : Q ∈ AddSubgroup.zmultiples P := (QuotientAddGroup.eq_zero_iff Q).1 hclass
  have hfinite : IsOfFinAddOrder P := addOrderOf_pos_iff.1 (by rw [horder]; exact prime_groupOrder.pos)
  rw [hfinite.mem_zmultiples_iff_mem_range_addOrderOf, horder] at hmem
  obtain ⟨k, hk, hkP⟩ := Finset.mem_image.1 hmem
  exact ⟨k, Finset.mem_range.1 hk, hkP⟩

end Point

end DistributedKey
