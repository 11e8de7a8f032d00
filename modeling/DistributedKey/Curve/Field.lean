/-
The two prime fields of the curve: `Coordinate` for the coordinates of points and `Scalar` for the exponents.

Both are residues kept below their modulus, with the arithmetic of `Fin`. Only what `Fin` lacks is added here:
inverses, scalars acting on scalars, and numbers read as residues.
-/
import DistributedKey.Curve.Residue

namespace DistributedKey

/-- the field of definition has this many elements; one less is an odd number times `2 ^ 46` -/
def coordinateModulus : Nat :=
  258664426012969094010652733694893533536393512754914660539884262666720468348340822774968888139573360124440321458177

/-- the order of the generator's group -/
def groupOrder : Nat := 8444461749428370424248824938781546531375899335154063827935233455917409239041

instance : Residue.Modulus coordinateModulus := ⟨by decide⟩
instance : Residue.Modulus groupOrder := ⟨by decide⟩

abbrev Coordinate := Fin coordinateModulus

/-- an exponent: a residue modulo the group order -/
abbrev Scalar := Fin groupOrder

namespace Coordinate

def ofNat (n : Nat) : Coordinate := Fin.ofNat coordinateModulus n

/-- the residue of an integer -/
def ofInt (z : Int) : Coordinate :=
  ⟨(z % coordinateModulus).toNat, by
    have hm : 0 < (coordinateModulus : Int) := by decide
    have := Int.emod_lt_of_pos z hm
    have := Int.emod_nonneg z (Int.ne_of_gt hm)
    omega⟩

/-- `5`, which is no square, to the odd part of the order of the multiplicative group: its order is `2 ^ 46` -/
def twoPowerRoot : Coordinate := ofNat
  33774956008227656219775876656288133547078610493828613777258829345740556592044969439504850374928261397247202212840

def sqrt? (x : Coordinate) : Option Coordinate :=
  Residue.sqrt? 46 ((coordinateModulus - 1) / Nat.pow 2 46) twoPowerRoot x

end Coordinate

namespace Scalar

def ofNat (n : Nat) : Scalar := Fin.ofNat groupOrder n

instance (priority := 2000) : Zero Scalar := ⟨0⟩
instance (priority := 2000) : One Scalar := ⟨1⟩
instance (priority := 2000) : NatCast Scalar := ⟨ofNat⟩
instance (priority := 2000) : Inv Scalar := ⟨Residue.inverse⟩
instance (priority := 2000) : SMul Scalar Scalar := ⟨fun a b => a * b⟩

end Scalar

end DistributedKey
