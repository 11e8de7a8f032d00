/-
The curve's group as the arithmetic of the protocol: sampling, and the instance of `Suite`.

A random residue is drawn as words of which the bits above the modulus are cleared, until it is below the modulus;
the accepted number `n` stands for the residue `n / 2^w`, where `w` is the number of bits drawn.
-/
import DistributedKey.Curve.Encoding
import DistributedKey.Curve.Hashing

namespace DistributedKey

/-- draws after which sampling gives up -/
def drawAttempts : Nat := 512

namespace Scalar

/-- one over `2 ^ 256` -/
def unscale : Scalar := (ofNat (Nat.pow 2 256))⁻¹

/-- bytes that a scalar takes -/
def width : Nat := 32

def draw (s : Random) : Scalar × Random :=
  let (n, s) := s.numberBelow 8 253 groupOrder drawAttempts
  (ofNat n * unscale, s)

/-- a digest as a number, least significant byte first, modulo the group order -/
def ofDigest (digest : Bytes) : Scalar := ofNat (Bytes.toNat digest)

end Scalar

namespace Coordinate

/-- one over `2 ^ 384` -/
def unscale : Coordinate := Residue.inverse (ofNat (Nat.pow 2 384))

def draw (s : Random) : Coordinate × Random :=
  let (n, s) := s.numberBelow 12 377 coordinateModulus drawAttempts
  (ofNat n * unscale, s)

end Coordinate

namespace Point

/-- bytes that three coordinates take -/
def width : Nat := 3 * 48

/-- a random x-coordinate and root, until there is a point; then the cofactor is cleared -/
def drawWithin : (attempts : Nat) → Random → Point × Random
  | 0, s => (.identity, s)
  | attempts + 1, s =>
    let (x, s) := Coordinate.draw s
    let (w, s) := s.nextWord
    match lift? x (Nat.pow 2 31 ≤ w.toNat) with
    | some p => (clearCofactor p, s)
    | none => drawWithin attempts s

def draw (s : Random) : Point × Random := drawWithin drawAttempts s

end Point

instance : Sampled Scalar := ⟨Scalar.draw⟩
instance : Sampled Point := ⟨Point.draw⟩

instance : Suite Scalar Point where
  generator := Point.generator
  blinding := Point.blinding
  onCurve := Point.onCurve
  inSubgroup := Point.inSubgroup
  ofDigest := Scalar.ofDigest

end DistributedKey
