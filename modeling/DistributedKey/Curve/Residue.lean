/-
Arithmetic modulo a prime on `Fin m`: powers, inverses and square roots.

- `pow` squares and multiplies; `inverse` is the power `m - 2`, so the inverse of zero is zero.
- `sqrt?` finds a root when the order of the multiplicative group is `2 ^ s` times an odd number, given a generator
  of the part of order `2 ^ s`. It checks its answer: `sqrt? x = some y` always means `y * y = x`.
-/

namespace DistributedKey.Residue

/-- a number that residues can be taken of -/
abbrev Modulus (m : Nat) : Prop := @NeZero Nat Zero.ofOfNat0 m

variable {m : Nat} [Modulus m]

/-- `x` to the power `e` -/
def pow (x : Fin m) (e : Nat) : Fin m :=
  if e = 0 then Fin.ofNat m 1
  else
    let h := pow (x * x) (e / 2)
    if e % 2 = 1 then x * h else h
termination_by e
decreasing_by omega

def inverse (x : Fin m) : Fin m := pow x (m - 2)

/-- `x` squared `times` times over -/
def squared (x : Fin m) : (times : Nat) → Fin m
  | 0 => x
  | times + 1 => squared (x * x) times

/-- turns `a`, a root up to the factor `b` of order dividing `2 ^ j`, into a root; `z` has order `2 ^ (j + 1)` -/
def correctRoot (z b a : Fin m) : (j : Nat) → Fin m
  | 0 => a
  | j + 1 =>
    let z2 := z * z
    if squared b j = Fin.ofNat m 1 then correctRoot z2 b a j else correctRoot z2 (b * z2) (a * z) j

/-- a square root, if there is one; `odd` and `s` with `m - 1 = 2 ^ s * odd`, and `z` of order `2 ^ s` -/
def sqrt? (s odd : Nat) (z x : Fin m) : Option (Fin m) :=
  let w := pow x (odd / 2)
  let a := x * w
  let y := correctRoot z (a * w) a (s - 1)
  if y * y = x then some y else none

theorem sqrt?_mul_self {s odd : Nat} {z x y : Fin m} (h : sqrt? s odd z x = some y) : y * y = x := by
  simp only [sqrt?] at h
  split at h
  · rename_i h'
    simp only [Option.some.injEq] at h
    rw [← h]; exact h'
  · simp at h

end DistributedKey.Residue
