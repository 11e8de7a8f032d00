/-
The coordinates of points are a prime field.

- `prime_coordinateModulus`: the number of coordinates passes Pocklington's test, as do the primes that it needs on the way.
- `Coordinate.toField`: a coordinate read in any field of that characteristic, with the operations that the library
  computes read there (`toField_ofInt`, `toField_inverse`, …). `toField_injective`: no coordinate is lost.
-/
import DistributedKey.Proofs.Curve.Field

namespace DistributedKey

open Residue

/-- the largest prime that divides one less than the number of coordinates -/
def coordinateFactor : Nat := 73387170334035996766247648424745786170238574695861388454532790956181

instance : Modulus coordinateFactor := ⟨by decide⟩

theorem prime_coordinateFactor : coordinateFactor.Prime := by
  have h13 : Nat.Prime 494527005853 :=
    prime_of_pow_coprime 22044 (5 : Fin 494527005853) (List.forall_mem_singleton.2 (by norm_num : Nat.Prime 22433633))
      rfl (by norm_num) (by norm_num) (by decide +kernel) (by decide +kernel)
  have h8583511 : ∀ q ∈ [19, 8583511], Nat.Prime q := by
    simp only [List.forall_mem_cons]
    norm_num
  have h16 : Nat.Prime 5187222954756607 :=
    prime_of_pow_coprime 31806534 (3 : Fin 5187222954756607) h8583511 rfl (by norm_num) (by norm_num)
      (by decide +kernel) (by decide +kernel)
  have h28 : Nat.Prime 7880826209898991662826602799 :=
    prime_of_pow_coprime 1519276552914 (21 : Fin 7880826209898991662826602799) (List.forall_mem_singleton.2 h16) rfl
      (by norm_num) (by norm_num) (by decide +kernel) (by decide +kernel)
  have hfactors : ∀ q ∈ [494527005853, 7880826209898991662826602799], Nat.Prime q := by
    simp only [List.forall_mem_cons, h13, h28]
    norm_num
  exact prime_of_pow_coprime 18830349416609749721222646940 (3 : Fin coordinateFactor) hfactors rfl (by decide +kernel)
    (by decide) (by decide +kernel) (by decide +kernel)

/-- **The number of coordinates is prime.** -/
theorem prime_coordinateModulus : coordinateModulus.Prime := by
  have hfactors : ∀ q ∈ [coordinateFactor], Nat.Prime q := by
    simp only [List.forall_mem_singleton, prime_coordinateFactor]
  exact prime_of_pow_coprime ((coordinateModulus - 1) / coordinateFactor) (15 : Coordinate) hfactors rfl
    (by decide +kernel) (by decide) (by decide +kernel) (by decide +kernel)

namespace Coordinate

/-! ## coordinates in a field -/

variable {K : Type} [Field K]

def toField (K : Type) [Field K] (x : Coordinate) : K := (x.val : K)

@[simp] theorem cast_val (x : Coordinate) : (x.val : K) = toField K x := rfl

@[simp] theorem toField_zero : toField K 0 = 0 := Nat.cast_zero
@[simp] theorem toField_one : toField K 1 = 1 := Nat.cast_one

variable [CharP K coordinateModulus]

theorem cast_mod_coordinateModulus (n : Nat) : ((n % coordinateModulus : Nat) : K) = n :=
  (CharP.cast_eq_mod K coordinateModulus n).symm

@[simp] theorem toField_add (x y : Coordinate) : toField K (x + y) = toField K x + toField K y := by
  rw [toField, Fin.val_add, cast_mod_coordinateModulus, Nat.cast_add]
  rfl

@[simp] theorem toField_mul (x y : Coordinate) : toField K (x * y) = toField K x * toField K y := by
  rw [toField, Fin.val_mul, cast_mod_coordinateModulus, Nat.cast_mul]
  rfl

@[simp] theorem toField_ofInt (z : Int) : toField K (ofInt z) = z := by
  have hpos : 0 ≤ z % (coordinateModulus : Int) := Int.emod_nonneg z (by decide)
  have hval : ((ofInt z).val : Int) = z % (coordinateModulus : Int) := Int.toNat_of_nonneg hpos
  rw [toField, ← Int.cast_natCast, hval, ← CharP.intCast_eq_intCast_mod]

theorem toField_injective : Function.Injective (toField K) := by
  intro x y h
  have hmod := (CharP.natCast_eq_natCast K coordinateModulus).1 h
  exact Fin.ext (Nat.ModEq.eq_of_lt_of_lt hmod x.isLt y.isLt)

@[simp] theorem toField_inj {x y : Coordinate} : toField K x = toField K y ↔ x = y := toField_injective.eq_iff

@[simp] theorem toField_eq_zero {x : Coordinate} : toField K x = 0 ↔ x = 0 := by
  rw [← toField_inj (K := K), toField_zero]

@[simp] theorem toField_neg (x : Coordinate) : toField K (-x) = -toField K x := by
  refine eq_neg_of_add_eq_zero_left ?_
  rw [← toField_add, toField_eq_zero]
  exact neg_add_cancel x

@[simp] theorem toField_sub (x y : Coordinate) : toField K (x - y) = toField K x - toField K y := by
  refine eq_sub_of_add_eq ?_
  rw [← toField_add]
  exact congrArg (toField K) (sub_add_cancel x y)

instance : Fact coordinateModulus.Prime := ⟨prime_coordinateModulus⟩

@[simp] theorem toField_inverse (x : Coordinate) : toField K (inverse x) = (toField K x)⁻¹ := by
  have hread : ∀ y : Coordinate, toField K y = ZMod.castHom dvd_rfl K (ZMod.finEquiv coordinateModulus y) :=
    fun y => (castHom_finEquiv dvd_rfl y).symm
  rw [hread, hread, finEquiv_inverse (by decide), map_inv₀]

@[simp] theorem toField_pow (x : Coordinate) (e : Nat) : toField K (pow x e) = toField K x ^ e :=
  cast_pow dvd_rfl x e

end Coordinate

end DistributedKey
