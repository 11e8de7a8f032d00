/-
The curve `y² = x³ + 1` and its group law, in affine coordinates.

A point is the identity or a pair of coordinates, so equal points are equal values. Nothing in the type says that
a pair is on the curve: `onCurve` and `inSubgroup` are the checks, and `add` is the chord and tangent rule.
Multiples are taken in Jacobian coordinates, which need one inversion at the end instead of one a step.
-/
import DistributedKey.Curve.Field

namespace DistributedKey

inductive Point where
  | identity
  | affine (x y : Coordinate)
deriving DecidableEq

/-- stands for `(X / Z², Y / Z³)`, and for the identity when `Z` is zero -/
structure Jacobian where
  X : Coordinate
  Y : Coordinate
  Z : Coordinate

namespace Jacobian

def identity : Jacobian := ⟨1, 1, 0⟩

/-! Formulas are evaluated over the integers, and a coordinate is reduced once. -/

def double (p : Jacobian) : Jacobian :=
  let s : Int := (p.Y.val + p.Y.val : Nat)
  let t : Int := (Coordinate.ofInt (s * p.Y.val)).val
  let d : Int := (Coordinate.ofInt ((p.X.val + p.X.val : Nat) * t)).val
  let e : Int := (Coordinate.ofInt (3 * (p.X.val * p.X.val : Nat))).val
  let x := Coordinate.ofInt (e * e - (d + d))
  ⟨x, .ofInt (e * (d - x.val) - 2 * (t * t)), .ofInt (s * p.Z.val)⟩

/-- sum with the affine point `(x, y)` -/
def addAffine (p : Jacobian) (x y : Coordinate) : Jacobian :=
  if p.Z = 0 then ⟨x, y, 1⟩
  else
    let zz := p.Z * p.Z
    let h := Coordinate.ofInt ((x.val * zz.val : Nat) - p.X.val)
    let r := Coordinate.ofInt ((y.val * (p.Z * zz).val : Nat) - p.Y.val)
    if h = 0 then if r = 0 then double p else identity
    else
      let hh := h * h
      let hhh : Int := (h * hh).val
      let v : Int := (p.X * hh).val
      let x' := Coordinate.ofInt ((r.val * r.val : Nat) - hhh - (v + v))
      ⟨x', .ofInt (r.val * (v - x'.val) - p.Y.val * hhh), p.Z * h⟩

/-- the multiple of `(x, y)` by `k`, doubling and adding -/
def multiple (x y : Coordinate) (k : Nat) : Jacobian :=
  if k = 0 then identity
  else
    let half := double (multiple x y (k / 2))
    if k % 2 = 1 then addAffine half x y else half
termination_by k
decreasing_by omega

def toPoint (p : Jacobian) : Point :=
  if p.Z = 0 then .identity
  else
    let i := Residue.inverse p.Z
    let ii := i * i
    .affine (p.X * ii) (p.Y * (i * ii))

end Jacobian

namespace Point

/-- the point with x-coordinate and slope of the line that was drawn through `(x, y)` -/
def third (slope x y x' : Coordinate) : Point :=
  let x3 := slope * slope - x - x'
  .affine x3 (slope * (x - x3) - y)

/-- chord and tangent -/
def add : Point → Point → Point
  | .identity, q => q
  | p, .identity => p
  | .affine x y, .affine x' y' =>
    if x = x' then
      if y = y' ∧ y ≠ 0 then third ((x * x + x * x + x * x) * Residue.inverse (y + y)) x y x
      else .identity
    else third ((y' - y) * Residue.inverse (x' - x)) x y x'

def neg : Point → Point
  | .identity => .identity
  | .affine x y => .affine x (-y)

/-- `k` times the point -/
def multiple (k : Nat) : Point → Point
  | .identity => .identity
  | .affine x y => (Jacobian.multiple x y k).toPoint

instance : Zero Point := ⟨.identity⟩
instance : Add Point := ⟨add⟩
instance : Neg Point := ⟨neg⟩
instance : SMul Scalar Point := ⟨fun s p => multiple s.val p⟩

/-- right-hand side of the curve equation -/
def rightSide (x : Coordinate) : Coordinate := x * x * x + 1

def onCurve : Point → Bool
  | .identity => true
  | .affine x y => y * y = rightSide x

/-- annihilated by the group order -/
def inSubgroup (p : Point) : Bool := multiple groupOrder p = .identity

/-- the number of points of the curve divided by the group order -/
def cofactor : Nat := 0x170b5d4430000000 * Nat.pow 2 64

def clearCofactor (p : Point) : Point := multiple cofactor p

/-- the point over `x` with the smaller root, or with the larger one; none when `x³ + 1` is no square -/
def lift? (x : Coordinate) (larger : Bool) : Option Point :=
  (Coordinate.sqrt? (rightSide x)).map fun y =>
    .affine x (if decide (y < -y) = larger then -y else y)

def generator : Point := .affine
  (Coordinate.ofNat
    81937999373150964239938255573465948239988671502647976594219695644855304257327692006745978603320413799295628339695)
  (Coordinate.ofNat
    241266749859715473739788878240585681733927191168601896383759122102112907357779751001206799952863815012735208165030)

end Point

end DistributedKey
