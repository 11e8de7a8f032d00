/-
What a dealer broadcasts first: commitments to its polynomials and one sealed share a shareholder.

It is built once. A silent dealer and one that withholds its contribution build nothing, and count as having dealt.
-/
import DistributedKey.Shareholder.State

namespace DistributedKey.Shareholder

variable {F G : Type} [Suite F G] [NatCast F] [Zero F] [Add F] [SMul F F] [Zero G] [Add G] [SMul F G]

/-- the commitments of a dealer: blinded unless its behavior is to omit that -/
def commitments (s : Shareholder F G) : Poly G :=
  if s.behavior = .omitBlinding then s.f1.commitWith generator else Poly.pedersenCommit s.f1 s.f2

variable [Wire F] [Wire G] [Sampled F]

/-- the shares for participants, sealed one after the other -/
def sealShares (f1 f2 : Poly F) : List (Participant G) → Random → List (EncryptedShare G) × Random
  | [], rng => ([], rng)
  | p :: rest, rng =>
    let (secret, rng) := SealedBox.encrypt p.key (Wire.encode (pairFor f1 f2 p.id)) rng
    let (others, rng) := sealShares f1 f2 rest rng
    (⟨p.id, secret⟩ :: others, rng)

/-- deals, the first time; a behavior that does not deal has no contribution -/
def contribute (s : Shareholder F G) : Option (Payload F G) × Shareholder F G :=
  if s.contributed then (none, s)
  else if s.behavior = .silent ∨ s.behavior = .withholdContribution then (none, { s with contributed := true })
  else
    let (shares, rng) := sealShares s.f1 s.f2 s.group.participants s.rng
    (some (.contribution ⟨s.commitments, shares⟩), { s with contributed := true, rng })

end DistributedKey.Shareholder
