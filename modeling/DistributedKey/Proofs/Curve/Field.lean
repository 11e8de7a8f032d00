/-
The exponents of the curve are a prime field.

- `Residue.finEquiv_pow`, `Residue.finEquiv_inverse`: squaring and multiplying computes powers, and so the power `m - 2` is
  the inverse modulo an odd prime `m`. The residues are a field with it (`Residue.field`).
- `Residue.castHom_finEquiv`, `Residue.cast_pow`: so is a residue read in any ring whose characteristic divides `m`.
- `Residue.prime_of_pow_coprime`: Pocklington's test, by those same powers. It takes the primes of a part of `m - 1` only,
  if that part is more than the root of `m`. `prime_groupOrder`: the order of the group passes it.
- `Scalar.field`, `Scalar.charP`: so what is proved over every field of that characteristic holds of the exponents.
-/
import Mathlib.GroupTheory.OrderOfElement
import Mathlib.FieldTheory.Finite.Basic
import Mathlib.Tactic
import DistributedKey.Curve.Field

namespace DistributedKey

namespace Residue

variable {m : Nat} [Modulus m]

/-! ## powers and inverses -/

theorem finEquiv_pow (x : Fin m) (e : Nat) : ZMod.finEquiv m (pow x e) = ZMod.finEquiv m x ^ e := by
  induction e using Nat.strong_induction_on generalizing x with
  | _ e ih =>
    rw [pow]
    split_ifs with hzero hodd
    · rw [hzero, pow_zero]
      exact map_one (ZMod.finEquiv m)
    · have hhalf := ih (e / 2) (by omega) (x * x)
      calc ZMod.finEquiv m (x * pow (x * x) (e / 2))
          = ZMod.finEquiv m x * (ZMod.finEquiv m x * ZMod.finEquiv m x) ^ (e / 2) := by rw [map_mul, hhalf, map_mul]
        _ = ZMod.finEquiv m x ^ (2 * (e / 2) + 1) := by rw [← sq, ← pow_mul, ← pow_succ']
        _ = ZMod.finEquiv m x ^ e := by rw [show 2 * (e / 2) + 1 = e by omega]
    · have hhalf := ih (e / 2) (by omega) (x * x)
      calc ZMod.finEquiv m (pow (x * x) (e / 2))
          = (ZMod.finEquiv m x * ZMod.finEquiv m x) ^ (e / 2) := by rw [hhalf, map_mul]
        _ = ZMod.finEquiv m x ^ (2 * (e / 2)) := by rw [← sq, ← pow_mul]
        _ = ZMod.finEquiv m x ^ e := by rw [show 2 * (e / 2) = e by omega]

-- modulo 2 this fails: the inverse of zero is then its power 0
theorem finEquiv_inverse [Fact m.Prime] (hodd : 2 < m) (x : Fin m) :
    ZMod.finEquiv m (inverse x) = (ZMod.finEquiv m x)⁻¹ := by
  rw [inverse, finEquiv_pow]
  by_cases hx : ZMod.finEquiv m x = 0
  · rw [hx, inv_zero, zero_pow (by omega)]
  · refine eq_inv_of_mul_eq_one_left ?_
    rw [← pow_succ, show m - 2 + 1 = m - 1 by omega, ZMod.pow_card_sub_one_eq_one hx]

/-- the field of residues modulo an odd prime -/
@[reducible] def field (hm : m.Prime) (hodd : 2 < m) : Field (Fin m) where
  __ := Fin.instCommRing m
  inv := inverse
  div x y := x * inverse y
  div_eq_mul_inv _ _ := rfl
  exists_pair_ne := ⟨0, 1, fun h => by
    have : Fact m.Prime := ⟨hm⟩
    have hcast := congrArg (ZMod.finEquiv m) h
    rw [map_zero, map_one] at hcast
    exact zero_ne_one hcast⟩
  mul_inv_cancel x hx := by
    have : Fact m.Prime := ⟨hm⟩
    apply (ZMod.finEquiv m).injective
    rw [map_mul, finEquiv_inverse hodd, map_one, mul_inv_cancel₀ (EmbeddingLike.map_ne_zero_iff.2 hx)]
  inv_zero := by
    have : Fact m.Prime := ⟨hm⟩
    apply (ZMod.finEquiv m).injective
    rw [finEquiv_inverse hodd, map_zero, inv_zero]
  nnqsmul := _
  nnqsmul_def := fun _ _ => rfl
  qsmul := _
  qsmul_def := fun _ _ => rfl

theorem charP_field (hm : m.Prime) (hodd : 2 < m) : @CharP (Fin m) (field hm hodd).toAddMonoidWithOne m := by
  let _ := field hm hodd
  let residue : ZMod m →+* Fin m := (ZMod.finEquiv m).symm.toRingHom
  have hinjective : Function.Injective residue := (ZMod.finEquiv m).symm.injective
  exact charP_of_injective_ringHom hinjective m

/-! ## residues read in another ring -/

/-- a residue modulo a multiple of the characteristic is its representative -/
theorem castHom_finEquiv {K : Type} [Ring K] {p : Nat} [CharP K p] (hdvd : p ∣ m) (x : Fin m) :
    ZMod.castHom hdvd K (ZMod.finEquiv m x) = (x.val : K) := by
  have hval : (ZMod.finEquiv m x).val = x.val := by
    cases m with
    | zero => exact x.elim0
    | succ m => rfl
  rw [ZMod.castHom_apply, ← hval, ZMod.natCast_val]

theorem cast_pow {K : Type} [Ring K] {p : Nat} [CharP K p] (hdvd : p ∣ m) (x : Fin m) (e : Nat) :
    ((pow x e).val : K) = (x.val : K) ^ e := by
  rw [← castHom_finEquiv hdvd, ← castHom_finEquiv hdvd, finEquiv_pow, map_pow]

/-! ## primes -/

/-- the order of a number modulo a prime `p` is `d`, as it divides `d` and no `d / q` for a prime factor `q` of `d` -/
theorem dvd_sub_one_of_pow {p d : Nat} (k : Nat) [Fact p.Prime] (a : ZMod p) {factors : List Nat}
    (hfactors : ∀ q ∈ factors, q.Prime) (hprod : factors.prod = d) (hone : a ^ (d * k) = 1)
    (hne : ∀ q ∈ factors, a ^ (d * k / q) ≠ 1) : d ∣ p - 1 := by
  have hpos : 0 < d := hprod ▸ Nat.pos_of_ne_zero (List.prod_ne_zero fun h => (hfactors 0 h).ne_zero rfl)
  have horder : orderOf (a ^ k) = d := by
    refine orderOf_eq_of_pow_and_pow_div_prime hpos (by rw [← pow_mul, Nat.mul_comm k, hone]) fun q hq hdvd => ?_
    have hmem := mem_list_primes_of_dvd_prod hq.prime (fun f hf => (hfactors f hf).prime) (hprod ▸ hdvd)
    rw [← pow_mul, Nat.mul_comm k, Nat.div_mul_right_comm hdvd]
    exact hne q hmem
  have hunit : a ^ k ≠ 0 := by
    intro hzero
    rw [hzero, orderOf_zero] at horder
    omega
  rw [← horder]
  exact orderOf_dvd_of_pow_eq_one (ZMod.pow_card_sub_one_eq_one hunit)

/-- a residue that has order `d` up to a factor, modulo each prime factor of `m`, keeps these factors above `d` -/
theorem dvd_sub_one_of_pow_coprime {d : Nat} (k : Nat) (x : Fin m) {factors : List Nat} (hfactors : ∀ q ∈ factors, q.Prime)
    (hprod : factors.prod = d) (hone : pow x (d * k) = 1)
    (hcoprime : ∀ q ∈ factors, Nat.Coprime ((pow x (d * k / q)).val - 1) m) {p : Nat} (hp : p.Prime) (hdvd : p ∣ m) :
    d ∣ p - 1 := by
  have : Fact p.Prime := ⟨hp⟩
  have hval : (1 : Fin m).val = 1 :=
    Nat.mod_eq_of_lt (lt_of_lt_of_le hp.one_lt (Nat.le_of_dvd (NeZero.pos m) hdvd))
  refine dvd_sub_one_of_pow k (x.val : ZMod p) hfactors hprod ?_ fun q hq hpow => ?_
  · rw [← cast_pow hdvd, hone, hval, Nat.cast_one]
  · rw [← cast_pow hdvd] at hpow
    have hpos : 1 ≤ (pow x (d * k / q)).val := by
      refine Nat.one_le_iff_ne_zero.2 fun hzero => zero_ne_one (α := ZMod p) ?_
      rw [← hpow, hzero, Nat.cast_zero]
    have hzero : (((pow x (d * k / q)).val - 1 : Nat) : ZMod p) = 0 := by
      rw [Nat.cast_sub hpos, hpow, Nat.cast_one, sub_self]
    exact Nat.not_coprime_of_dvd_of_dvd hp.one_lt ((ZMod.natCast_eq_zero_iff _ _).1 hzero) hdvd (hcoprime q hq)

/-- **Pocklington's test.** If `d` exceeds the root of `m`, so does every prime factor of `m`, and there is but one. -/
theorem prime_of_pow_coprime {d : Nat} (k : Nat) (x : Fin m) {factors : List Nat} (hfactors : ∀ q ∈ factors, q.Prime)
    (hprod : factors.prod = d) (hlarge : m < d * d) (hm : m ≠ 1) (hone : pow x (d * k) = 1)
    (hcoprime : ∀ q ∈ factors, Nat.Coprime ((pow x (d * k / q)).val - 1) m) : m.Prime := by
  by_contra hcomposite
  have hprime : m.minFac.Prime := Nat.minFac_prime hm
  have hdvd := dvd_sub_one_of_pow_coprime k x hfactors hprod hone hcoprime hprime (Nat.minFac_dvd m)
  have hlt : d < m.minFac := by
    have hle := Nat.le_of_dvd (Nat.sub_pos_of_lt hprime.one_lt) hdvd
    have := hprime.two_le
    omega
  have hsquare := Nat.minFac_sq_le_self (NeZero.pos m) hcomposite
  exact absurd hsquare (Nat.not_le.2 (by nlinarith))

end Residue

open Residue

/-- the parameter `x` of the curve; the group order is `x ^ 4 - x ^ 2 + 1` -/
theorem prime_9586122913090633729 : Nat.Prime 9586122913090633729 := by
  have hfactors : ∀ q ∈ List.replicate 46 2, Nat.Prime q := fun q hq => List.eq_of_mem_replicate hq ▸ Nat.prime_two
  exact prime_of_pow_coprime 136227 (11 : Fin 9586122913090633729) hfactors rfl (by norm_num) (by norm_num)
    (by decide +kernel) (by decide +kernel)

/-- **The order of the group is prime.** -/
theorem prime_groupOrder : groupOrder.Prime := by
  have hfactors : ∀ q ∈ [9586122913090633729, 9586122913090633729], Nat.Prime q := by
    simp only [List.forall_mem_cons, prime_9586122913090633729]
    norm_num
  exact prime_of_pow_coprime 91893752504881257701523279626832445440 (2 : Scalar) hfactors rfl (by decide +kernel)
    (by decide) (by decide +kernel) (by decide +kernel)

namespace Scalar

theorem two_lt_groupOrder : 2 < groupOrder := by decide

-- not an instance, so that the operations are found as they are declared beside `Scalar`
/-- the exponents as a field, with the operations that the library computes -/
@[reducible] def field : Field Scalar := Residue.field prime_groupOrder two_lt_groupOrder

theorem charP : @CharP Scalar field.toAddMonoidWithOne groupOrder :=
  Residue.charP_field prime_groupOrder two_lt_groupOrder

/-- no two indices share an x-coordinate -/
theorem words_le_groupOrder : UInt32.size ≤ groupOrder := by decide

end Scalar

end DistributedKey
