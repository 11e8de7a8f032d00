/-
The state of one shareholder: its view of the log, and what it keeps to itself.

`create` refuses a group whose parameters are out of bounds, an index outside of the group, and a private key that
does not belong to the public key at that index. It draws the two polynomials of degree `k - 1` that the shareholder
deals with, the secret one first.
-/
import DistributedKey.View
import DistributedKey.Alert

namespace DistributedKey

/-- how a shareholder deviates from the protocol -/
inductive Behavior where
  | honest
  /-- commits to its secret polynomial without blinding -/
  | omitBlinding
  /-- takes every message in but sends none -/
  | silent
  /-- deals nothing but takes part in all else -/
  | withholdContribution
deriving DecidableEq

namespace Behavior

/-- in the order of their numbers -/
def all : List Behavior := [.honest, .omitBlinding, .silent, .withholdContribution]

def name : Behavior → String
  | .honest => "Honest"
  | .omitBlinding => "OmitBlinding"
  | .silent => "Silent"
  | .withholdContribution => "WithholdContribution"

def ofName? (s : String) : Option Behavior := all.find? (·.name = s)

instance : Wire Behavior := ⟨fun b => Wire.encodeCase (all.idxOf b), Wire.case 4 (all[·]?)⟩

end Behavior

structure Shareholder (F G : Type) where
  index : Index
  privateKey : F
  group : Group G
  behavior : Behavior
  rng : Random
  /-- its value at zero is this dealer's part of the secret -/
  f1 : Poly F
  /-- blinds the commitments to `f1` -/
  f2 : Poly F
  contributed : Bool := false
  view : View G
  /-- own judgments of the dealers -/
  ownStatuses : List (Option Status)
  vectorSent : Bool := false
  /-- the accepted share of each dealer -/
  shares : List (Option (SharePair F))
  /-- the sum of the shares of QUAL -/
  finalShare : Option (SharePair F) := none
  alerts : AlertLog := []
deriving DecidableEq

namespace Shareholder

variable {F G : Type}

def params (s : Shareholder F G) : Params := s.group.params

/-- the shareholder at `index` of a group, before any message -/
def create [Suite F G] [SMul F G] [DecidableEq G] [Sampled F] (index : Index) (privateKey : F) (group : Group G)
    (behavior : Behavior) (rng : Random) : Except Failure (Shareholder F G) := do
  group.config.validate
  match group.key? index with
  | none => throw (.indexOutOfRange index group.size)
  | some key =>
    if privateKey • (generator : G) ≠ key then throw (.privateKeyMismatch index)
    let (f1, rng) := Poly.draw (group.threshold.toNat - 1) rng
    let (f2, rng) := Poly.draw (group.threshold.toNat - 1) rng
    let n := group.size
    return { index, privateKey, group, behavior, rng, f1, f2, view := .initial n,
             ownStatuses := List.replicate n none, shares := List.replicate n none }

/-- the public key of the final share -/
def sharePublicKey? [Suite F G] [SMul F G] (s : Shareholder F G) : Option G :=
  s.finalShare.map (·.value • (generator : G))

/-- the values of two polynomials for shareholder `i` -/
def pairFor [NatCast F] [Zero F] [Add F] [SMul F F] (f1 f2 : Poly F) (i : Index) : SharePair F :=
  ⟨i, f1.eval (xCoordinate i : F), f2.eval (xCoordinate i : F)⟩

end Shareholder

end DistributedKey
