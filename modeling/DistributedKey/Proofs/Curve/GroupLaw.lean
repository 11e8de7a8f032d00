/-
The multiples that the library takes are multiples in the group of the curve.

- `curve`: `y² = x³ + b`. The formulas do not mention `b`, so they serve every curve of that shape, the twist too.
- `Represents`: a Jacobian triple stands for a point. `represents_double`, `represents_addAffine`: each formula keeps it,
  with the cases that a formula cannot treat (a doubled 2-torsion point, opposite points, equal points).
- `represents_multiple`: so doubling and adding gives `k • P`, by induction on the halving of `k`.
- `Point.ofCurve`: the points of the curve as the library writes them; `onCurve_iff`: these are the points that pass its
  check. `multiple_ofCurve`: its multiples of them are those of the group.
-/
import Mathlib.AlgebraicGeometry.EllipticCurve.Affine.Point
import DistributedKey.Curve.Point
import DistributedKey.Proofs.Curve.Coordinate

namespace DistributedKey

open Coordinate Residue WeierstrassCurve.Affine

/-- the curve `y² = x³ + b` -/
def curve {K : Type} [Field K] (b : K) : WeierstrassCurve.Affine K := ⟨0, 0, 0, 0, b⟩

namespace curve

variable {K : Type} [Field K] {b : K}

/-! ## chord and tangent -/

theorem equation_iff (x y : K) : (curve b).Equation x y ↔ y * y = x * x * x + b := by
  rw [WeierstrassCurve.Affine.equation_iff]
  simp only [curve]
  constructor
  · intro h
    linear_combination h
  · intro h
    linear_combination h

theorem natCast_ne_zero [CharP K coordinateModulus] {n : Nat} (hdvd : ¬coordinateModulus ∣ n) : (n : K) ≠ 0 :=
  mt (CharP.cast_eq_zero_iff K coordinateModulus n).1 hdvd

theorem nonsingular_iff [CharP K coordinateModulus] (hb : b ≠ 0) (x y : K) :
    (curve b).Nonsingular x y ↔ y * y = x * x * x + b := by
  have h432 : (432 : K) ≠ 0 := mod_cast natCast_ne_zero (K := K) (n := 432) (by decide)
  have hΔ : (curve b).Δ = -(432 * b ^ 2) := by
    simp only [WeierstrassCurve.Δ, WeierstrassCurve.b₂, WeierstrassCurve.b₄, WeierstrassCurve.b₆, WeierstrassCurve.b₈,
      curve]
    ring
  have hne : (curve b).Δ ≠ 0 := by
    rw [hΔ]
    exact neg_ne_zero.2 (mul_ne_zero h432 (pow_ne_zero 2 hb))
  rw [← equation_iff_nonsingular_of_Δ_ne_zero hne, equation_iff]

@[simp] theorem negY_eq (x y : K) : (curve b).negY x y = -y := by simp [negY, curve]

variable [DecidableEq K]

/-- the third point of the line of slope `ℓ`, turned over -/
theorem some_add_some {x y x' y' ℓ : K} (h : (curve b).Nonsingular x y) (h' : (curve b).Nonsingular x' y')
    (hne : ¬(x = x' ∧ y = (curve b).negY x' y')) (hℓ : (curve b).slope x x' y y' = ℓ) :
    ∃ h'', Point.some x y h + Point.some x' y' h' =
      (Point.some (ℓ * ℓ - x - x') (ℓ * (x - (ℓ * ℓ - x - x')) - y) h'' : (curve b).Point) := by
  have hX : (curve b).addX x x' ℓ = ℓ * ℓ - x - x' := by
    simp only [addX, curve]
    ring
  have hY : (curve b).addY x x' y ℓ = ℓ * (x - (ℓ * ℓ - x - x')) - y := by
    rw [addY, negY_eq, negAddY, hX]
    ring
  have hsum := nonsingular_add h h' hne
  rw [hℓ, hX, hY] at hsum
  refine ⟨hsum, ?_⟩
  rw [Point.add_some hne]
  simp only [hℓ, hX, hY]

theorem some_add_some_of_ne {x y x' y' ℓ : K} (h : (curve b).Nonsingular x y) (h' : (curve b).Nonsingular x' y')
    (hx : x ≠ x') (hℓ : ℓ * (x - x') = y - y') :
    ∃ h'', Point.some x y h + Point.some x' y' h' =
      (Point.some (ℓ * ℓ - x - x') (ℓ * (x - (ℓ * ℓ - x - x')) - y) h'' : (curve b).Point) := by
  refine some_add_some h h' (fun hxy => hx hxy.left) ?_
  rw [slope_of_X_ne hx, div_eq_iff (sub_ne_zero.2 hx), hℓ]

theorem some_add_self {x y ℓ : K} (h : (curve b).Nonsingular x y) (hy : y + y ≠ 0) (hℓ : ℓ * (y + y) = 3 * (x * x)) :
    ∃ h', Point.some x y h + Point.some x y h =
      (Point.some (ℓ * ℓ - x - x) (ℓ * (x - (ℓ * ℓ - x - x)) - y) h' : (curve b).Point) := by
  have hne : y ≠ (curve b).negY x y := by
    rw [negY_eq]
    exact fun h => hy (by linear_combination h)
  refine some_add_some h h (fun hxy => hne hxy.right) ?_
  rw [slope_of_Y_ne rfl hne, negY_eq, sub_neg_eq_add, div_eq_iff hy, hℓ]
  simp only [curve]
  ring

theorem some_add_self_eq_zero {x y : K} (h : (curve b).Nonsingular x y) (hy : y + y = 0) :
    Point.some x y h + Point.some x y h = (0 : (curve b).Point) :=
  Point.add_self_of_Y_eq (by rw [negY_eq]; exact eq_neg_of_add_eq_zero_left hy)

end curve

namespace Jacobian

variable {K : Type} [Field K] {b : K}

/-! ## Jacobian coordinates -/

/-- the triple stands for the point -/
def Represents (p : Jacobian) : (curve b).Point → Prop
  | .zero => p.Z = 0
  | .some x y _ => p.Z ≠ 0 ∧ toField K p.X = x * toField K p.Z ^ 2 ∧ toField K p.Y = y * toField K p.Z ^ 3

variable {p : Jacobian}

theorem represents_zero : p.Represents (0 : (curve b).Point) ↔ p.Z = 0 := Iff.rfl

theorem represents_some {x y : K} {h : (curve b).Nonsingular x y} : p.Represents (.some x y h) ↔
    p.Z ≠ 0 ∧ toField K p.X = x * toField K p.Z ^ 2 ∧ toField K p.Y = y * toField K p.Z ^ 3 := Iff.rfl

variable [CharP K coordinateModulus]

/-! ## doubling -/

theorem toField_double :
    toField K (double p).X = (3 * toField K p.X ^ 2) ^ 2 - 8 * toField K p.X * toField K p.Y ^ 2 ∧
    toField K (double p).Y = 3 * toField K p.X ^ 2 * (4 * toField K p.X * toField K p.Y ^ 2 - toField K (double p).X) -
      8 * toField K p.Y ^ 4 ∧
    toField K (double p).Z = 2 * toField K p.Y * toField K p.Z := by
  simp only [double, toField_ofInt, Int.cast_sub, Int.cast_add, Int.cast_mul, Int.cast_natCast, Int.cast_ofNat,
    Nat.cast_add, Nat.cast_mul, cast_val]
  refine ⟨by ring, by ring, by ring⟩

/-! ## adding an affine point -/

variable {x y : Coordinate}

theorem addAffine_of_Z_eq_zero (hZ : p.Z = 0) : addAffine p x y = ⟨x, y, 1⟩ := if_pos hZ

theorem toField_run : toField K (ofInt ((x.val * (p.Z * p.Z).val : Nat) - p.X.val)) =
    toField K x * toField K p.Z ^ 2 - toField K p.X := by
  rw [toField_ofInt, Int.cast_sub, Int.cast_natCast, Int.cast_natCast, Nat.cast_mul, cast_val, cast_val, cast_val,
    toField_mul, sq]

theorem toField_rise : toField K (ofInt ((y.val * (p.Z * (p.Z * p.Z)).val : Nat) - p.Y.val)) =
    toField K y * toField K p.Z ^ 3 - toField K p.Y := by
  rw [toField_ofInt, Int.cast_sub, Int.cast_natCast, Int.cast_natCast, Nat.cast_mul, cast_val, cast_val, cast_val,
    toField_mul, toField_mul, ← sq, ← pow_succ']

/-- the chord through points of different x-coordinates; its slope is `rise / (Z run)` -/
theorem toField_addAffine {run rise : K} (hZ : p.Z ≠ 0) (hrun : run = toField K x * toField K p.Z ^ 2 - toField K p.X)
    (hrise : rise = toField K y * toField K p.Z ^ 3 - toField K p.Y) (hne : run ≠ 0) :
    toField K (addAffine p x y).X = rise ^ 2 - run ^ 3 - 2 * toField K p.X * run ^ 2 ∧
    toField K (addAffine p x y).Y =
      rise * (toField K p.X * run ^ 2 - toField K (addAffine p x y).X) - toField K p.Y * run ^ 3 ∧
    toField K (addAffine p x y).Z = toField K p.Z * run := by
  rw [hrun, ← toField_run, toField_eq_zero.ne] at hne
  rw [hrun, hrise, ← toField_run, ← toField_rise]
  simp only [addAffine, if_neg hZ, if_neg hne]
  simp only [toField_ofInt, toField_mul, Int.cast_sub, Int.cast_add, Int.cast_mul, Int.cast_natCast, Nat.cast_mul,
    cast_val, and_true]
  refine ⟨by ring, by ring⟩

variable [DecidableEq K]

/-- at the same x-coordinate the points are equal or opposite -/
theorem addAffine_of_run_eq_zero (hZ : p.Z ≠ 0) (hrun : toField K x * toField K p.Z ^ 2 - toField K p.X = 0) :
    addAffine p x y =
      if toField K y * toField K p.Z ^ 3 - toField K p.Y = 0 then double p else identity := by
  rw [← toField_run, toField_eq_zero] at hrun
  rw [addAffine, if_neg hZ, if_pos hrun, ← toField_rise]
  simp only [toField_eq_zero]

/-! ## what the triples stand for -/

theorem represents_double {P : (curve b).Point} (h : p.Represents P) : (double p).Represents (P + P) := by
  obtain ⟨hX', hY', hZ'⟩ := toField_double (K := K) (p := p)
  cases P with
  | zero =>
    have hZ : p.Z = 0 := h
    change (double p).Represents (0 + 0 : (curve b).Point)
    rw [add_zero, represents_zero, ← toField_eq_zero (K := K), hZ', hZ, toField_zero, mul_zero]
  | some x y hxy =>
    obtain ⟨hZ, hX, hY⟩ := represents_some.1 h
    replace hZ' : toField K (double p).Z = (y + y) * toField K p.Z ^ 4 := by
      rw [hZ', hY]
      ring
    by_cases hy : y + y = 0
    · rw [curve.some_add_self_eq_zero hxy hy, represents_zero, ← toField_eq_zero (K := K), hZ', hy, zero_mul]
    · have hslope : 3 * (x * x) / (y + y) * (y + y) = 3 * (x * x) := div_mul_cancel₀ _ hy
      generalize 3 * (x * x) / (y + y) = ℓ at hslope
      obtain ⟨h', hsum⟩ := curve.some_add_self hxy hy hslope
      replace hX' : toField K (double p).X = (ℓ * ℓ - x - x) * toField K (double p).Z ^ 2 := by
        rw [hX', hZ', hX, hY]
        linear_combination -(3 * (x * x) + ℓ * (y + y)) * toField K p.Z ^ 8 * hslope
      rw [hsum, represents_some]
      refine ⟨?_, hX', ?_⟩
      · rw [Ne, ← toField_eq_zero (K := K), hZ']
        exact mul_ne_zero hy (pow_ne_zero 4 (toField_eq_zero.not.2 hZ))
      · rw [hY', hX', hZ', hX, hY]
        linear_combination -(x - (ℓ * ℓ - x - x)) * (y + y) ^ 2 * toField K p.Z ^ 12 * hslope

variable {u v : K} {huv : (curve b).Nonsingular u v}

theorem represents_addAffine_of_eq (h : p.Represents (.some u v huv))
    (hxy : (curve b).Nonsingular (toField K x) (toField K y)) (hx : u = toField K x) :
    (addAffine p x y).Represents (.some u v huv + .some _ _ hxy : (curve b).Point) := by
  obtain ⟨hZ, hX, hY⟩ := represents_some.1 h
  have hZ' : toField K p.Z ≠ 0 := toField_eq_zero.not.2 hZ
  have hrun : toField K x * toField K p.Z ^ 2 - toField K p.X = 0 := by rw [hX, hx, sub_self]
  have hrise : toField K y * toField K p.Z ^ 3 - toField K p.Y = (toField K y - v) * toField K p.Z ^ 3 := by
    rw [hY]
    ring
  rw [addAffine_of_run_eq_zero hZ hrun, hrise]
  split_ifs with hzero
  · have hv : toField K y = v := sub_eq_zero.1 ((mul_eq_zero.1 hzero).resolve_right (pow_ne_zero 3 hZ'))
    subst hx hv
    exact represents_double h
  · have hopposite : v = (curve b).negY (toField K x) (toField K y) :=
      (Y_eq_of_X_eq huv.1 hxy.1 hx).resolve_left fun hv => hzero (by rw [hv, sub_self, zero_mul])
    rw [Point.add_of_Y_eq hx hopposite, represents_zero]
    rfl

theorem represents_addAffine_of_ne (h : p.Represents (.some u v huv))
    (hxy : (curve b).Nonsingular (toField K x) (toField K y)) (hx : u ≠ toField K x) :
    (addAffine p x y).Represents (.some u v huv + .some _ _ hxy : (curve b).Point) := by
  obtain ⟨hZ, hX, hY⟩ := represents_some.1 h
  have hZ' : toField K p.Z ≠ 0 := toField_eq_zero.not.2 hZ
  have hne : u - toField K x ≠ 0 := sub_ne_zero.2 hx
  have hslope : (v - toField K y) / (u - toField K x) * (u - toField K x) = v - toField K y := div_mul_cancel₀ _ hne
  generalize (v - toField K y) / (u - toField K x) = ℓ at hslope
  obtain ⟨h', hsum⟩ := curve.some_add_some_of_ne huv hxy hx hslope
  have hrun : toField K x * toField K p.Z ^ 2 - toField K p.X = -(u - toField K x) * toField K p.Z ^ 2 := by
    rw [hX]
    ring
  have hrise : toField K y * toField K p.Z ^ 3 - toField K p.Y = -(ℓ * (u - toField K x)) * toField K p.Z ^ 3 := by
    rw [hslope, hY]
    ring
  have hrun' : -(u - toField K x) * toField K p.Z ^ 2 ≠ 0 := mul_ne_zero (neg_ne_zero.2 hne) (pow_ne_zero 2 hZ')
  obtain ⟨hX', hY', hZ''⟩ := toField_addAffine hZ hrun.symm hrise.symm hrun'
  replace hX' : toField K (addAffine p x y).X = (ℓ * ℓ - u - toField K x) * toField K (addAffine p x y).Z ^ 2 := by
    rw [hX', hZ'', hX]
    ring
  rw [hsum, represents_some]
  refine ⟨?_, hX', ?_⟩
  · rw [Ne, ← toField_eq_zero (K := K), hZ'']
    exact mul_ne_zero hZ' hrun'
  · rw [hY', hX', hZ'', hX, hY]
    ring

theorem represents_addAffine {P : (curve b).Point} (h : p.Represents P)
    (hxy : (curve b).Nonsingular (toField K x) (toField K y)) :
    (addAffine p x y).Represents (P + .some _ _ hxy) := by
  cases P with
  | zero =>
    have hZ : p.Z = 0 := h
    have hone : (1 : Coordinate) ≠ 0 := by decide
    change (addAffine p x y).Represents (0 + .some _ _ hxy : (curve b).Point)
    rw [zero_add, addAffine_of_Z_eq_zero hZ, represents_some]
    exact ⟨hone, by simp, by simp⟩
  | some u v huv =>
    by_cases hx : u = toField K x
    · exact represents_addAffine_of_eq h hxy hx
    · exact represents_addAffine_of_ne h hxy hx

/-- **Doubling and adding gives the multiples of the group.** -/
theorem represents_multiple (hxy : (curve b).Nonsingular (toField K x) (toField K y)) (k : Nat) :
    (multiple x y k).Represents (k • .some _ _ hxy : (curve b).Point) := by
  induction k using Nat.strong_induction_on with
  | _ k ih =>
    rw [multiple]
    split_ifs with hzero hodd
    · rw [hzero, zero_nsmul, represents_zero]
      rfl
    · have hhalf := represents_addAffine (represents_double (ih (k / 2) (by omega))) hxy
      rwa [← add_nsmul, ← succ_nsmul, show k / 2 + k / 2 + 1 = k by omega] at hhalf
    · have hhalf := represents_double (ih (k / 2) (by omega))
      rwa [← add_nsmul, show k / 2 + k / 2 = k by omega] at hhalf

end Jacobian

namespace Coordinate

def ofField (a : ZMod coordinateModulus) : Coordinate := (ZMod.finEquiv coordinateModulus).symm a

@[simp] theorem toField_ofField (a : ZMod coordinateModulus) : toField _ (ofField a) = a := by
  have hread := castHom_finEquiv (K := ZMod coordinateModulus) dvd_rfl (ofField a)
  rw [ofField, RingEquiv.apply_symm_apply, ZMod.castHom_self] at hread
  exact hread.symm

@[simp] theorem ofField_toField (x : Coordinate) : ofField (toField _ x) = x :=
  toField_injective (K := ZMod coordinateModulus) (toField_ofField _)

end Coordinate

/-- the points of the curve `y² = x³ + 1` over the coordinates -/
abbrev CurvePoint := (curve (1 : ZMod coordinateModulus)).Point

namespace Point

variable {b : ZMod coordinateModulus}

/-! ## points of the curve -/

def ofCurve : (curve b).Point → Point
  | .zero => .identity
  | .some x y _ => .affine (ofField x) (ofField y)

@[simp] theorem ofCurve_zero : ofCurve (0 : (curve b).Point) = .identity := rfl

theorem ofCurve_some {x y : Coordinate} (h : (curve b).Nonsingular (toField _ x) (toField _ y)) :
    ofCurve (.some _ _ h : (curve b).Point) = .affine x y := by
  rw [ofCurve, ofField_toField, ofField_toField]

theorem ofCurve_injective : Function.Injective (ofCurve (b := b)) := by
  rintro (_ | ⟨x, y, h⟩) (_ | ⟨x', y', h'⟩) heq
  · rfl
  · exact Point.noConfusion heq
  · exact Point.noConfusion heq
  · obtain ⟨hx, hy⟩ := Point.affine.inj heq
    obtain rfl : x = x' := by rw [← toField_ofField x, hx, toField_ofField]
    obtain rfl : y = y' := by rw [← toField_ofField y, hy, toField_ofField]
    rfl

@[simp] theorem ofCurve_eq_identity {P : (curve b).Point} : ofCurve P = .identity ↔ P = 0 :=
  ofCurve_injective.eq_iff' ofCurve_zero

theorem toPoint_of_represents {p : Jacobian} {P : (curve b).Point} (h : p.Represents P) : p.toPoint = ofCurve P := by
  cases P with
  | zero => exact if_pos h
  | some x y hxy =>
    obtain ⟨hZ, hX, hY⟩ := Jacobian.represents_some.1 h
    have hZ' : toField (ZMod coordinateModulus) p.Z ≠ 0 := toField_eq_zero.not.2 hZ
    rw [Jacobian.toPoint, if_neg hZ, ofCurve, Point.affine.injEq, ← toField_inj (K := ZMod coordinateModulus),
      ← toField_inj (K := ZMod coordinateModulus)]
    simp only [toField_mul, toField_inverse, toField_ofField, hX, hY]
    constructor <;> field_simp

/-- **Multiples are those of the group.** -/
theorem multiple_ofCurve (k : Nat) (P : (curve b).Point) : multiple k (ofCurve P) = ofCurve (k • P) := by
  cases P with
  | zero =>
    change Point.identity = ofCurve (k • 0)
    rw [nsmul_zero, ofCurve_zero]
  | some x y h =>
    obtain ⟨x, rfl⟩ : ∃ x', toField _ x' = x := ⟨ofField x, toField_ofField x⟩
    obtain ⟨y, rfl⟩ : ∃ y', toField _ y' = y := ⟨ofField y, toField_ofField y⟩
    rw [ofCurve_some]
    exact toPoint_of_represents (Jacobian.represents_multiple h k)

theorem nonsingular_of_mul_self {x y : Coordinate} (h : y * y = rightSide x) :
    (curve (1 : ZMod coordinateModulus)).Nonsingular (toField _ x) (toField _ y) := by
  rw [curve.nonsingular_iff one_ne_zero, ← toField_mul, h, rightSide]
  simp only [toField_add, toField_mul, toField_one]

/-- **The points of the curve are those that pass the check.** -/
theorem onCurve_iff {p : Point} : p.onCurve ↔ ∃ P : CurvePoint, ofCurve P = p := by
  constructor
  · intro h
    cases p with
    | identity => exact ⟨0, rfl⟩
    | affine x y => exact ⟨_, ofCurve_some (nonsingular_of_mul_self (of_decide_eq_true h))⟩
  · rintro ⟨P, rfl⟩
    cases P with
    | zero => rfl
    | some x y h =>
      have heq := (curve.nonsingular_iff one_ne_zero x y).1 h
      refine decide_eq_true ?_
      rw [← toField_inj (K := ZMod coordinateModulus), rightSide]
      simpa only [toField_add, toField_mul, toField_one, toField_ofField] using heq

end Point

end DistributedKey
