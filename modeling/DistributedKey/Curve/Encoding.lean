/-
Canonical bytes of scalars and points, and their text.

A scalar is 32 bytes, least significant first, with the top bit clear. A point is its x-coordinate in 48 bytes; of
the two top bits of the last byte, the higher says that `y` is the larger root and the lower one marks the identity,
whose x is written as zero and not read. A point outside of the subgroup has no canonical bytes.
-/
import DistributedKey.Suite
import DistributedKey.Curve.Point

namespace DistributedKey

def Scalar.toBytes (s : Scalar) : Bytes := Bytes.ofNat 32 s.val

def Scalar.ofBytes (bs : Bytes) : Except EncodingError Scalar :=
  let bs := bs.take 32
  let n := Bytes.toNat bs
  if bs.length < 32 then .error .truncated
  else if Nat.pow 2 255 ≤ n then .error .unexpectedFlags
  else if h : n < groupOrder then .ok ⟨n, h⟩
  else .error .notReduced

namespace Point

/-- the bit that marks a larger root -/
def largerBit : Nat := Nat.pow 2 383

/-- the bit that marks the identity -/
def identityBit : Nat := Nat.pow 2 382

def toBytes : Point → Bytes
  | .identity => Bytes.ofNat 48 identityBit
  | .affine x y => Bytes.ofNat 48 (x.val + if -y < y then largerBit else 0)

def ofBytes (bs : Bytes) : Except EncodingError Point :=
  let bs := bs.take 48
  let n := Bytes.toNat bs
  let larger : Bool := n / largerBit % 2 = 1
  let isIdentity : Bool := n / identityBit % 2 = 1
  if bs.length < 48 then .error .truncated
  else if larger ∧ isIdentity then .error .unexpectedFlags
  else if h : n % identityBit < coordinateModulus then
    if isIdentity then .ok .identity
    else match lift? ⟨n % identityBit, h⟩ larger with
      | some p => if inSubgroup p then .ok p else .error .notInGroup
      | none => .error .notInGroup
  else .error .notReduced

end Point

instance : Canonical Scalar := ⟨Scalar.toBytes, Scalar.ofBytes⟩
instance : Canonical Point := ⟨Point.toBytes, Point.ofBytes⟩

/-! ## text -/

/-- a number in `width` bytes as upper-case digits, most significant first -/
def fixedHex (width n : Nat) : String := (Bytes.toHex (Bytes.ofNatBE width n)).map Char.toUpper

def Scalar.text (s : Scalar) : String := "\x7bFp256 \"(" ++ fixedHex 32 s.val ++ ")\"\x7d"

def Point.text : Point → String
  | .identity => "\x7bGroupAffine(Infinity)\x7d"
  | .affine x y => "\x7bGroupAffine(x=Fp384 \"(" ++ fixedHex 48 x.val ++ ")\", y=Fp384 \"("
      ++ fixedHex 48 y.val ++ ")\")\x7d"

end DistributedKey
