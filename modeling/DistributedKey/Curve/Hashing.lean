/-
Points from bytes: data is hashed with a counter into an x-coordinate until one is on the curve and its multiple by
the cofactor is not the identity.

`firstCleared` is the search over any group, with the lifting of an x-coordinate and the clearing of the cofactor as
parameters: what it finds is the cleared point of the first counter for which there is one. `Point.map` moves a target
there, or leaves it where it is.
-/
import DistributedKey.Curve.Point
import DistributedKey.Digest.Sha256

namespace DistributedKey

/-- the cleared point over `x`, unless there is no point or clearing leaves the identity -/
def cleared? {X G : Type} [Zero G] [DecidableEq G] (lift? : X → Option G) (clear : G → G) (x : X) : Option G :=
  (lift? x).bind fun p => if clear p = 0 then none else some (clear p)

/-- the first counter below `attempts` that gives a point, by increasing counter -/
def firstCleared {X G : Type} [Zero G] [DecidableEq G] (lift? : X → Option G) (clear : G → G) (x : Nat → X)
    (attempts : Nat) : Option G :=
  (List.range attempts).findSome? fun counter => cleared? lift? clear (x counter)

/-- why data has no point -/
inductive HashingError where
  /-- none of so many counters gave one -/
  | exhausted (attempts : Nat)
deriving DecidableEq

def HashingError.message : HashingError → String
  | .exhausted attempts => s!"could not map data to the curve after {attempts} attempts"

namespace Point

/-- counters tried; about half of all x-coordinates are on the curve -/
def attempts : Nat := 256

/-- the x-coordinate that data and a counter hash to -/
def abscissa (data : Bytes) (counter : Nat) : Coordinate :=
  .ofNat <| Bytes.toNat <| Sha256.digest <|
    Bytes.ofText "threshold-primitives/bls12-377/g1/try-and-increment" ++ data ++ Bytes.ofNat 4 counter

/-- a point of the subgroup whose logarithm nobody knows; none after too many attempts -/
def ofData? (data : Bytes) : Option Point := firstCleared (lift? · false) clearCofactor (abscissa data) attempts

/-- moves the target to the point of the data; the target stays where it is when there is none -/
def map (data : Bytes) (target : Point) : Except HashingError Unit × Point :=
  match ofData? data with
  | some p => (.ok (), p)
  | none => (.error (.exhausted attempts), target)

/-- the second generator, from a public seed -/
def blinding : Point := (map (Bytes.ofText "nothing up my sleeve") .identity).2

end Point

end DistributedKey
