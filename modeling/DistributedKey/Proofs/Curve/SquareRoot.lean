/-
The point over an x-coordinate: there is one whenever `x³ + 1` is a square, and it has the smaller root.

- `correctRoot_mul_self`: the loop keeps `a² = x b`, `b ^ 2 ^ j = 1` and `z ^ 2 ^ j = -1`, so it ends with a root of `x`.
- `Coordinate.sqrt?_isSome`: by Euler's criterion a square starts the loop with that invariant. `sqrt?` therefore misses no
  root, though it would be sound with any loop.
- `Point.lift?_eq_some_iff`: what the lifting gives, without reference to how it is found.
-/
import Mathlib.NumberTheory.LegendreSymbol.Basic
import DistributedKey.Curve.Point
import DistributedKey.Proofs.Curve.Coordinate

namespace DistributedKey

open Residue

namespace Coordinate

variable {K : Type} [Field K] [CharP K coordinateModulus]

/-! ## the loop -/

theorem toField_squared (x : Coordinate) (times : Nat) : toField K (squared x times) = toField K x ^ 2 ^ times := by
  induction times generalizing x with
  | zero => rw [squared, pow_zero, pow_one]
  | succ times ih => rw [squared, ih, toField_mul, ← sq, ← pow_mul, ← pow_succ']

/-- a factor that is not yet one at the step `j` is minus one there -/
theorem toField_squared_eq_neg_one {b : Coordinate} {j : Nat} (hb : toField K b ^ 2 ^ (j + 1) = 1)
    (hne : squared b j ≠ 1) : toField K b ^ 2 ^ j = -1 := by
  have hsquare : toField K b ^ 2 ^ j * toField K b ^ 2 ^ j = 1 := by rw [← sq, ← pow_mul, ← pow_succ, hb]
  refine (mul_self_eq_one_iff.1 hsquare).resolve_left fun hone => hne ?_
  rw [← toField_inj (K := K), toField_squared, hone, toField_one]

theorem correctRoot_mul_self {x : K} (j : Nat) {z b a : Coordinate} (ha : toField K a * toField K a = x * toField K b)
    (hb : toField K b ^ 2 ^ j = 1) (hz : toField K z ^ 2 ^ j = -1) :
    toField K (correctRoot z b a j) * toField K (correctRoot z b a j) = x := by
  induction j generalizing z b a with
  | zero =>
    rw [pow_zero, pow_one] at hb
    rw [correctRoot, ha, hb, mul_one]
  | succ j ih =>
    have hz2 : toField K (z * z) ^ 2 ^ j = -1 := by rw [toField_mul, ← sq, ← pow_mul, ← pow_succ', hz]
    rw [correctRoot]
    split_ifs with hone
    · refine ih ha ?_ hz2
      rw [← toField_squared, hone]
      exact toField_one
    · refine ih ?_ ?_ hz2
      · simp only [toField_mul]
        linear_combination (toField K z * toField K z) * ha
      · rw [toField_mul, mul_pow, toField_squared_eq_neg_one hb hone, hz2, neg_one_mul, neg_neg]

theorem correctRoot_zero (j : Nat) (z b : Coordinate) : correctRoot z b 0 j = 0 := by
  induction j generalizing z b with
  | zero => rfl
  | succ j ih =>
    rw [correctRoot]
    split_ifs
    · exact ih _ _
    · rw [Fin.zero_mul]
      exact ih _ _

/-! ## completeness -/

theorem toField_twoPowerRoot : toField K twoPowerRoot ^ 2 ^ 45 = -1 := by
  have hsquared : squared twoPowerRoot 45 = -1 := by decide +kernel
  rw [← toField_squared, hsquared, toField_neg, toField_one]

theorem pow_half_eq_one {x y : Coordinate} (hx : x ≠ 0) (h : y * y = x) :
    toField (ZMod coordinateModulus) x ^ (coordinateModulus / 2) = 1 := by
  have hne : toField (ZMod coordinateModulus) x ≠ 0 := mt toField_eq_zero.1 hx
  have hsquare : IsSquare (toField (ZMod coordinateModulus) x) := ⟨toField _ y, by rw [← h, toField_mul]⟩
  exact (ZMod.euler_criterion coordinateModulus hne).1 hsquare

/-- the search with the order of the multiplicative group split as `2 ^ s * odd` finds a root of every square -/
theorem isSome_of_mul_self {s odd : Nat} {z x y : Coordinate} (hz : toField (ZMod coordinateModulus) z ^ 2 ^ (s - 1) = -1)
    (hodd : (2 * (odd / 2) + 1) * 2 ^ (s - 1) = coordinateModulus / 2) (h : y * y = x) :
    (Residue.sqrt? s odd z x).isSome := by
  rw [Residue.sqrt?]
  set w := pow x (odd / 2) with hw
  suffices hroot : correctRoot z (x * w * w) (x * w) (s - 1) * correctRoot z (x * w * w) (x * w) (s - 1) = x by
    rw [if_pos hroot, Option.isSome_some]
  by_cases hx : x = 0
  · rw [hx, Fin.zero_mul, Fin.zero_mul, correctRoot_zero, Fin.zero_mul]
  rw [← toField_inj (K := ZMod coordinateModulus), toField_mul]
  refine correctRoot_mul_self (s - 1) ?_ ?_ hz
  · simp only [toField_mul]
    ring
  · calc toField (ZMod coordinateModulus) (x * w * w) ^ 2 ^ (s - 1)
        = (toField _ x ^ (2 * (odd / 2) + 1)) ^ 2 ^ (s - 1) := by
          rw [toField_mul, toField_mul, hw, toField_pow]
          ring
      _ = toField _ x ^ (coordinateModulus / 2) := by rw [← pow_mul, hodd]
      _ = 1 := pow_half_eq_one hx h

/-- **Every square has a root that is found.** -/
theorem sqrt?_isSome {x y : Coordinate} (h : y * y = x) : (sqrt? x).isSome :=
  isSome_of_mul_self toField_twoPowerRoot (by norm_num [coordinateModulus]) h

/-! ## the smaller root -/

theorem eq_or_eq_neg_of_mul_self {y y' : Coordinate} (h : y' * y' = y * y) : y' = y ∨ y' = -y := by
  have hcast : toField (ZMod coordinateModulus) y' * toField _ y' = toField _ y * toField _ y := by
    rw [← toField_mul, h, toField_mul]
  refine (mul_self_eq_mul_self_iff.1 hcast).imp toField_inj.1 fun hneg => ?_
  rwa [← toField_neg, toField_inj] at hneg

theorem neg_mul_self (y : Coordinate) : -y * -y = y * y := by
  rw [← toField_inj (K := ZMod coordinateModulus)]
  simp only [toField_mul, toField_neg]
  exact neg_mul_neg _ _

/-- of a root and its negative, the smaller one -/
theorem isLeast_roots {x y : Coordinate} (h : y * y = x) :
    IsLeast {y | y * y = x} (if decide (y < -y) = false then -y else y) := by
  have hneg : -y * -y = x := by rw [neg_mul_self, h]
  have hroots : ∀ y' ∈ {y | y * y = x}, y' = y ∨ y' = -y := fun y' hy' => eq_or_eq_neg_of_mul_self (hy'.trans h.symm)
  split_ifs with hlt
  · have hle : -y ≤ y := not_lt.1 (of_decide_eq_false hlt)
    refine ⟨hneg, fun y' hy' => ?_⟩
    obtain rfl | rfl := hroots y' hy'
    · exact hle
    · exact le_rfl
  · have hle : y ≤ -y := le_of_lt (of_decide_eq_true (Bool.eq_true_of_not_eq_false hlt))
    refine ⟨h, fun y' hy' => ?_⟩
    obtain rfl | rfl := hroots y' hy'
    · exact le_rfl
    · exact hle

end Coordinate

namespace Point

open Coordinate

/-! ## the point over an x-coordinate -/

/-- **The lifting gives the point with the smaller root.** -/
theorem lift?_eq_some_iff {x : Coordinate} {p : Point} :
    lift? x false = some p ↔ ∃ y, IsLeast {y | y * y = rightSide x} y ∧ p = .affine x y := by
  rw [lift?, Option.map_eq_some_iff]
  constructor
  · rintro ⟨y, hy, rfl⟩
    exact ⟨_, isLeast_roots (sqrt?_mul_self hy), rfl⟩
  · rintro ⟨y, hleast, rfl⟩
    obtain ⟨y', hy'⟩ := Option.isSome_iff_exists.1 (sqrt?_isSome hleast.1)
    exact ⟨y', hy', congrArg _ ((isLeast_roots (sqrt?_mul_self hy')).unique hleast)⟩

end Point

end DistributedKey
