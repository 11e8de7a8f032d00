/-
Polynomials over exponents or over group elements, evaluated at exponents.

- Coefficients are listed from the free one on. `eval` is Horner's rule; coefficients in the group give the
  commitments of a polynomial, and evaluating those commutes with committing.
- `interpolate` takes the `t` values of lowest index, each index once, and sums them with Lagrange coefficients.
  `recover` does so at zero, where the free coefficient is.
-/
import DistributedKey.Wire

namespace DistributedKey

/-- coefficients from the free one on -/
structure Poly (α : Type) where
  coeffs : List α
deriving DecidableEq

/-- a value at the x-coordinate of an index -/
structure Eval (α : Type) where
  value : α
  index : Index
deriving DecidableEq

inductive PolyError where
  /-- fewer distinct indices than needed -/
  | tooFew (given needed : Nat)
  /-- two indices share an x-coordinate -/
  | noInverse
deriving DecidableEq

def PolyError.message : PolyError → String
  | .tooFew given needed => s!"Invalid recovery: only has {given}/{needed} shares"
  | .noInverse => "Could not invert scalar"

variable {F G V : Type}

namespace Poly

def degree (p : Poly V) : Nat := p.coeffs.length - 1

def length (p : Poly V) : Nat := p.coeffs.length

/-- the free coefficient; an empty polynomial has none -/
def constant? (p : Poly V) : Option V := p.coeffs.head?

/-- `degree + 1` coefficients drawn one after the other -/
def draw [Sampled V] (degree : Nat) (s : Random) : Poly V × Random :=
  let (cs, s) := drawMany (degree + 1) s
  (⟨cs⟩, s)

/-- the same where a coefficient takes `width` bytes; undefined if the list of them cannot be addressed -/
def draw? [Sampled V] (width degree : Nat) (s : Random) : Option (Poly V × Random) :=
  if Bytes.addressable (degree + 1) width then some (draw degree s) else none

/-- coefficientwise sum; the shorter list counts as padded with zeros -/
def addCoeffs [Add V] [Zero V] : List V → List V → List V
  | as, [] => as
  | [], b :: bs => (0 + b) :: addCoeffs [] bs
  | a :: as, b :: bs => (a + b) :: addCoeffs as bs

def add [Add V] [Zero V] (p q : Poly V) : Poly V := ⟨addCoeffs p.coeffs q.coeffs⟩

instance [Add V] [Zero V] : Add (Poly V) := ⟨add⟩

/-- the value at `x`, by Horner's rule -/
def eval [Zero V] [Add V] [SMul F V] (p : Poly V) (x : F) : V := p.coeffs.foldr (fun c acc => x • acc + c) 0

/-- the value for shareholder `i` -/
def share (F : Type) [NatCast F] [Zero V] [Add V] [SMul F V] (p : Poly V) (i : Index) : Eval V :=
  ⟨p.eval (xCoordinate i : F), i⟩

/-- every coefficient times a base element -/
def commitWith [SMul F G] (p : Poly F) (base : G) : Poly G := ⟨p.coeffs.map (· • base)⟩

/-- the commitments to the pairs of coefficients of two polynomials -/
def pedersenCommit [Suite F G] [SMul F G] [Add G] [Zero G] (a b : Poly F) : Poly G :=
  a.commitWith (generator : G) + b.commitWith (blinding : G)

end Poly

/-! ## interpolation -/

section Interpolation

variable [NatCast F] [Zero F] [One F] [Sub F] [Mul F] [Inv F] [DecidableEq F]

/-- the value given first for each index, by increasing index -/
def firstByIndex (shares : List (Eval V)) : IndexMap V := .ofList (shares.reverse.map fun s => (s.index, s.value))

/-- the entries of the `t` lowest indices -/
def lowest (t : Nat) (shares : List (Eval V)) : Except PolyError (List (Index × V)) :=
  let m := firstByIndex shares
  if m.size < t then .error (.tooFew m.size t) else .ok (m.entries.take t)

/-- the product of `x` less the x-coordinates of `others` -/
def vanishing (x : F) (others : List Index) : F := others.foldl (fun acc j => acc * (x - xCoordinate j)) 1

/-- the Lagrange coefficient at `x` of index `i` among `indices` -/
def lagrange? (x : F) (indices : List Index) (i : Index) : Option F :=
  let others := indices.filter (· ≠ i)
  (inverse? (vanishing (xCoordinate i) others)).map (vanishing x others * ·)

/-- the sum of the values by their Lagrange coefficients -/
def combine [Zero V] [Add V] [SMul F V] (x : F) (indices : List Index) : List (Index × V) → V → Except PolyError V
  | [], acc => .ok acc
  | (i, y) :: rest, acc =>
    match lagrange? x indices i with
    | some l => combine x indices rest (acc + l • y)
    | none => .error .noInverse

/-- the value at `x` of the polynomial through the `t` shares of lowest index -/
def interpolate [Zero V] [Add V] [SMul F V] (t : Nat) (shares : List (Eval V)) (x : F) : Except PolyError V := do
  let points ← lowest t shares
  combine x (points.map (·.1)) points 0

/-- the free coefficient -/
def recover (F : Type) [NatCast F] [Zero F] [One F] [Sub F] [Mul F] [Inv F] [DecidableEq F]
    [Zero V] [Add V] [SMul F V] (t : Nat) (shares : List (Eval V)) : Except PolyError V :=
  interpolate t shares (0 : F)

end Interpolation

instance [Wire V] : Wire (Poly V) := .via Poly.coeffs Poly.mk

instance [Wire V] : Wire (Eval V) := .via (fun e => (e.value, e.index)) fun (v, i) => ⟨v, i⟩

end DistributedKey
