/-
What the protocol needs of its arithmetic.

`F` is the field of exponents and `G` the group, written additively. Their operations are the ordinary ones
(`+`, `-`, `*`, `⁻¹`, `•`, `=`), so every definition that uses them can be read over any field and any module over it.
What is not arithmetic is given by three classes: a canonical byte form, sampling from a seeded stream, and the
public constants and checks of the group.

`xCoordinate i` is `i + 1`: the share of shareholder `i` is an evaluation away from zero, where the secret is.
-/
import DistributedKey.Index
import DistributedKey.Random

namespace DistributedKey

/-- why bytes are not the canonical form of a value -/
inductive EncodingError where
  /-- fewer bytes than the form has -/
  | truncated
  /-- bits are set that the form leaves clear, or set together -/
  | unexpectedFlags
  /-- a number that is not below its modulus -/
  | notReduced
  /-- no point of the group has this form -/
  | notInGroup
deriving DecidableEq

def EncodingError.message : EncodingError → String
  | .truncated | .notReduced => "I/O error"
  | .unexpectedFlags => "the call expects empty flags"
  | .notInGroup => "the input buffer contained invalid data"

/-- values with one canonical byte form; bytes after the form are not looked at -/
class Canonical (α : Type) where
  toBytes : α → Bytes
  ofBytes : Bytes → Except EncodingError α

/-- values drawn from a seeded stream -/
class Sampled (α : Type) where
  draw : Random → α × Random

/-- public constants and checks of a group `G` with exponents `F` -/
class Suite (F : outParam Type) (G : Type) where
  /-- the generator `g` -/
  generator : G
  /-- the second generator `h`, whose logarithm to `g` nobody knows -/
  blinding : G
  onCurve : G → Bool
  inSubgroup : G → Bool
  /-- a digest read as an exponent -/
  ofDigest : Bytes → F

export Suite (generator blinding)

variable {F G : Type}

/-- where the share of shareholder `i` is evaluated -/
def xCoordinate [NatCast F] (i : Index) : F := ((i.toNat + 1 : Nat) : F)

/-- commitment to `a` with blinding `b` -/
def pedersen [Suite F G] [Add G] [SMul F G] (a b : F) : G := a • (generator : G) + b • (blinding : G)

/-- none for zero -/
def inverse? [Zero F] [Inv F] [DecidableEq F] (x : F) : Option F := if x = 0 then none else some x⁻¹

/-- `count` values drawn one after the other -/
def drawMany [Sampled F] : (count : Nat) → Random → List F × Random
  | 0, s => ([], s)
  | count + 1, s =>
    let (a, s) := Sampled.draw s
    let (as, s) := drawMany count s
    (a :: as, s)

end DistributedKey
