/-
Proof of knowledge of the opening `(a, b)` of a commitment `a • g + b • h`, which reveals `a • g`.

Two Schnorr proofs, for `a • g` over `g` and for `b • h` over `h`, share one challenge. The challenge is a digest of
both generators, both revealed values and both nonces, in their byte form. `verifyWith` takes the challenge as any
function of the four varying points, so what the equations alone give can be stated apart from the hash.
-/
import DistributedKey.Poly
import DistributedKey.Digest.Sha256

namespace DistributedKey

structure Opening (F G : Type) where
  /-- `a • g` -/
  publicA : G
  /-- `b • h` -/
  publicB : G
  challenge : F
  responseA : F
  responseB : F
deriving DecidableEq

inductive OpeningError where
  /-- the revealed values do not add up to the commitment -/
  | commitmentMismatch
  /-- the challenge is not the one of the rebuilt nonces -/
  | invalidChallenge
deriving DecidableEq

def OpeningError.message : OpeningError → String
  | .commitmentMismatch => "A0 + B0 does not match the committed constant term"
  | .invalidChallenge => "challenge does not match the transcript"

/-- a challenge for two revealed values and two nonces -/
abbrev Challenge (F G : Type) := (publicA publicB nonceA nonceB : G) → F

variable {F G : Type}

namespace Opening

/-- the bytes that a challenge is the digest of -/
def transcript [Suite F G] [Wire G] (publicA publicB nonceA nonceB : G) : Bytes :=
  Bytes.ofText "avss-pedersen-opening-proof"
    ++ [(generator : G), blinding, publicA, publicB, nonceA, nonceB].flatMap Wire.encode

def digestChallenge [Suite F G] [Wire G] : Challenge F G := fun publicA publicB nonceA nonceB =>
  Suite.ofDigest G (Sha256.digest (transcript publicA publicB nonceA nonceB))

section

variable [Suite F G] [Add G] [SMul F G] [Sub F] [Mul F]

/-- the proof with nonces `r` and `s` -/
def proveWith (challenge : Challenge F G) (a b r s : F) : Opening F G :=
  let publicA := a • (generator : G)
  let publicB := b • (blinding : G)
  let c := challenge publicA publicB (r • generator) (s • blinding)
  ⟨publicA, publicB, c, r - c * a, s - c * b⟩

/-- the nonce over `g` that the response stands for -/
def nonceA (π : Opening F G) : G := π.responseA • (generator : G) + π.challenge • π.publicA

/-- the nonce over `h` that the response stands for -/
def nonceB (π : Opening F G) : G := π.responseB • (blinding : G) + π.challenge • π.publicB

/-- the revealed values add up to the commitment, and the challenge is the one of the rebuilt nonces -/
def verifyWith [DecidableEq F] [DecidableEq G] (challenge : Challenge F G) (π : Opening F G) (commitment : G) :
    Except OpeningError Unit :=
  if π.publicA + π.publicB ≠ commitment then .error .commitmentMismatch
  else if challenge π.publicA π.publicB π.nonceA π.nonceB ≠ π.challenge then .error .invalidChallenge
  else .ok ()

/-- draws the two nonces and proves -/
def prove [Wire G] [Sampled F] (a b : F) (rng : Random) : Opening F G × Random :=
  let (r, rng) := Sampled.draw rng
  let (s, rng) := Sampled.draw rng
  (proveWith digestChallenge a b r s, rng)

def verify [Wire G] [DecidableEq F] [DecidableEq G] (π : Opening F G) (commitment : G) : Except OpeningError Unit :=
  π.verifyWith digestChallenge commitment

end

end Opening

instance [Wire F] [Wire G] : Wire (Opening F G) :=
  .via (fun π => (π.publicA, π.publicB, π.challenge, π.responseA, π.responseB)) fun (a, b, c, r, s) => ⟨a, b, c, r, s⟩

end DistributedKey
