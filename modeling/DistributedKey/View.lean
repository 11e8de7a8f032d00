/-
What every reader of the log knows: the public part of a shareholder's state, and how one message changes it.

Nothing here looks at a private key, a received share, an own index or randomness. So two shareholders of one group
that read the same log have the same view, whatever they keep to themselves.

- `View.step` takes one message of one sender. It refuses with a `Violation`, or answers the next view. `crash` is the
  third outcome: a table was read outside of its bounds, or a number fell below zero.
- A dealer's first contribution always counts as seen; its commitments are kept if they are `k` proper points.
- A verification vector becomes a row of the matrix, an accepted rebuttal turns one complaint of it into a success.
- QUAL is frozen when `f + 1` dealers have more than `k + f` successes, R when `|QUAL| - f` members of QUAL have
  proved their constant terms, and the public key is known when `k` bulk proofs over R are in. Dealers are considered,
  and successes counted, over `Index.upTo n`.
-/
import DistributedKey.Board
import DistributedKey.Group

namespace DistributedKey

/-- why a message has no effect: it was refused, or the handler itself fails -/
inductive Fault where
  | refused (cause : Violation)
  | crash

abbrev Checked := Except Fault

namespace Checked

variable {α : Type}

def refuse (cause : Violation) : Checked α := .error (.refused cause)

/-- refuses unless the condition holds -/
def require (p : Prop) [Decidable p] (cause : Violation) : Checked Unit := if p then .ok () else refuse cause

/-- refuses when the value is not known -/
def known (a : Option α) (cause : Violation) : Checked α :=
  match a with
  | some a => .ok a
  | none => refuse cause

/-- crashes when there is no value -/
def present (a : Option α) : Checked α :=
  match a with
  | some a => .ok a
  | none => .error .crash

/-- the entry of a table; crashes outside of it -/
def entry (table : List α) (i : Index) : Checked α := present table[i.toNat]?

/-- the table with one entry replaced; crashes outside of it -/
def replace (table : List α) (i : Index) (a : α) : Checked (List α) :=
  if i.toNat < table.length then .ok (table.set i.toNat a) else .error .crash

/-- `a - b`; crashes below zero -/
def minus (a b : Nat) : Checked Nat := if b ≤ a then .ok (a - b) else .error .crash

end Checked

open Checked

/-- something worth telling the operator -/
inductive Notice where
  | violated (cause : Violation)
  /-- a member of R whose share is missing, so no bulk proof is sent -/
  | missingShareOfR
  /-- the constant term of a member of R cannot be interpolated -/
  | interpolationFailed (cause : PolyError)
  /-- the constant term of a member of QUAL is missing -/
  | contributionMissing
deriving DecidableEq

def Notice.message : Notice → String
  | .violated cause => cause.message
  | .missingShareOfR => "no share of a member of R, skipping bulk proof"
  | .interpolationFailed cause => "could not interpolate: " ++ cause.message
  | .contributionMissing => "public contribution missing"

/-- the public state; the tables have an entry for each shareholder -/
structure View (G : Type) where
  /-- dealers whose contribution was processed, valid or not -/
  seen : List Bool
  commitments : List (Option (Poly G))
  /-- the announced vectors, rebuttals applied -/
  verdicts : StatusMatrix
  /-- dealers with enough successes, in the order they got them -/
  candidates : List Index
  qual : Option IndexSet
  /-- the constant terms over `g` -/
  publicTerms : List (Option G)
  /-- members of QUAL that proved their constant term -/
  proofSet : IndexSet
  rSet : Option IndexSet
  /-- for each sender of a bulk proof, its shares of the members of R over `g` -/
  provenShares : List (Option (IndexMap G))
  uSet : IndexSet
  publicKey : Option G
deriving DecidableEq

variable {F G : Type}

namespace View

def initial (n : Nat) : View G where
  seen := List.replicate n false
  commitments := List.replicate n none
  verdicts := .empty n
  candidates := []
  qual := none
  publicTerms := List.replicate n none
  proofSet := .empty
  rSet := none
  provenShares := List.replicate n none
  uSet := .empty
  publicKey := none

/-! ## contributions -/

/-- a commitment to reject: the identity, off the curve, or outside of the subgroup -/
def improper [Suite F G] [Zero G] [DecidableEq G] (c : G) : Bool :=
  c = 0 || !Suite.onCurve c || !Suite.inSubgroup c

/-- `k` proper points -/
def checkCommitments [Suite F G] [Zero G] [DecidableEq G] (k : Nat) (c : Poly G) : Except Violation Unit :=
  if c.length ≠ k then .error (.wrongCommitmentCount c.length k)
  else match c.coeffs.findIdx? improper with
    | some i => .error (.invalidCommitment i)
    | none => .ok ()

def takeContribution [Suite F G] [Zero G] [DecidableEq G] (p : Params) (dealer : Index) (c : Contribution G)
    (v : View G) : Checked (View G) := do
  require (¬ (← entry v.seen dealer)) (.duplicate .contribution)
  let seen ← replace v.seen dealer true
  match checkCommitments p.k c.commitments with
  | .ok () => return { v with seen, commitments := ← replace v.commitments dealer (some c.commitments) }
  | .error _ => return { v with seen }

/-! ## verification and QUAL -/

/-- the dealers that have enough successes, behind the candidates there are, up to `f + 1` in all -/
def nextCandidates (p : Params) (verdicts : StatusMatrix) (candidates : List Index) : List Index :=
  (Index.upTo p.n).foldl (fun cs dealer =>
    if cs.length = p.f + 1 ∨ dealer ∈ cs then cs
    else if p.k + p.f < verdicts.successesFor dealer then cs ++ [dealer]
    else cs) candidates

/-- freezes QUAL once there are `f + 1` candidates -/
def tryQual (p : Params) (v : View G) : View G :=
  if v.qual.isSome then v
  else
    let candidates := nextCandidates p v.verdicts v.candidates
    { v with candidates, qual := if candidates.length < p.f + 1 then none else some (.ofList candidates) }

def takeVerification (p : Params) (reporter : Index) (statuses : List (Option Status)) (v : View G) :
    Checked (View G) := do
  require (¬ (← present (v.verdicts.hasRow? reporter))) (.duplicate .verification)
  require (statuses.length = p.n) (.wrongVectorLength statuses.length p.n)
  return tryQual p { v with verdicts := ← present (v.verdicts.setRow? reporter statuses) }

/-! ## rebuttals -/

section

variable [Suite F G] [NatCast F] [Zero G] [Add G] [SMul F G] [DecidableEq G]

/-- the pair opens the commitments evaluated for `i` -/
def shareCorrect (pair : SharePair F) (i : Index) (c : Poly G) : Bool :=
  c.eval (xCoordinate i : F) = pedersen pair.value pair.blinding

def takeRebuttal (p : Params) (accused : Index) (r : Rebuttal F) (v : View G) : Checked (View G) := do
  require (r.accuser.toNat < p.n) (.badRebuttal "accuser is not a shareholder")
  require (← present (v.verdicts.hasRow? r.accuser)) (.badRebuttal "accuser has not announced a verification vector")
  require (v.verdicts.get r.accuser accused = some .complaint)
    (.badRebuttal "accuser does not complain about the sender")
  let c ← known (← entry v.commitments accused) (.badRebuttal "commitments of the sender are unknown")
  require (r.share.index = r.accuser) (.wrongShareIndex r.share.index r.accuser)
  require (shareCorrect r.share r.accuser c) .shareMismatch
  return tryQual p { v with verdicts := v.verdicts.set r.accuser accused .success }

end

/-! ## proofs of constant terms and R -/

variable [Suite F G] [Wire G] [Add G] [SMul F G] [Sub F] [Mul F] [DecidableEq F] [DecidableEq G]

def takeProof (p : Params) (sender : Index) (π : Opening F G) (v : View G) : Checked (View G) := do
  let qual ← known v.qual (.stateViolation "QUAL is not frozen yet")
  require (sender ∈ qual) (.stateViolation "sender is not part of QUAL")
  let c ← known (← entry v.commitments sender) (.stateViolation "commitments of the sender are unknown")
  require (sender ∉ v.proofSet) (.duplicate .proof)
  match π.verify (← present c.constant?) with
  | .error cause => refuse (.invalidProof cause)
  | .ok () =>
    let proofSet := v.proofSet.insert sender
    let quorum ← minus qual.size p.f
    return { v with
      publicTerms := ← replace v.publicTerms sender (some π.publicA)
      proofSet
      rSet := if v.rSet.isNone ∧ proofSet.size = quorum then some (qual.filter (· ∉ proofSet)) else v.rSet }

/-! ## bulk proofs and the public key -/

variable [NatCast F] [Zero G]

/-- the revealed shares of the proven dealers; refuses unless each proof opens the sender's share -/
def openShares (sender : Index) (commitments : List (Option (Poly G))) :
    List (Index × Opening F G) → Checked (List (Index × G))
  | [] => return []
  | (dealer, π) :: rest => do
    let c ← known (← entry commitments dealer) (.invalidBulkProof "commitments of a member of R are unknown")
    match π.verify (c.eval (xCoordinate sender : F)) with
    | .error _ => refuse (.invalidBulkProof "proof does not open the sender's share")
    | .ok () => return (dealer, π.publicA) :: (← openShares sender commitments rest)

/-- the shares of a dealer that the senders in U proved -/
def sharesOf (provenShares : List (Option (IndexMap G))) (dealer : Index) : List Index → Checked (List (Eval G))
  | [] => return []
  | j :: rest => do
    let share := (← entry provenShares j).bind (·.find? dealer)
    let others ← sharesOf provenShares dealer rest
    return match share with
      | some value => ⟨value, j⟩ :: others
      | none => others

variable [Zero F] [One F] [Inv F]

/-- fills in the constant terms of members of R, up to the first that cannot be interpolated -/
def interpolateTerms (k : Nat) (v : View G) : List Index → Checked (View G × List Notice)
  | [] => return (v, [])
  | dealer :: rest => do
    match recover F k (← sharesOf v.provenShares dealer v.uSet.elems) with
    | .ok term => interpolateTerms k { v with publicTerms := ← replace v.publicTerms dealer (some term) } rest
    | .error cause => return (v, [.interpolationFailed cause])

/-- the sum of the constant terms of dealers; none when one is missing -/
def sumTerms (publicTerms : List (Option G)) : List Index → G → Checked (Option G)
  | [], acc => return some acc
  | dealer :: rest, acc => do
    match ← entry publicTerms dealer with
    | some term => sumTerms publicTerms rest (acc + term)
    | none => return none

/-- interpolates what QUAL members did not prove themselves, then sums up QUAL -/
def reconstruct (k : Nat) (v : View G) : Checked (View G × List Notice) := do
  match v.qual, v.rSet with
  | some qual, some r =>
    let (v, notices) ← interpolateTerms (F := F) k v r.elems
    if notices ≠ [] then return (v, notices)
    match ← sumTerms v.publicTerms qual.elems 0 with
    | some key => return ({ v with publicKey := some key }, [])
    | none => return (v, [.contributionMissing])
  | _, _ => return (v, [])

def takeBulkProof (p : Params) (sender : Index) (b : BulkProof F G) (v : View G) :
    Checked (View G × List Notice) := do
  if v.publicKey.isSome then return (v, [])
  require (← entry v.commitments sender).isSome (.stateViolation "commitments of the sender are unknown")
  let r ← known v.rSet (.stateViolation "R is not determined yet")
  require (b.proofs.keys = r.elems) (.invalidBulkProof "proven dealers do not match R")
  let points ← openShares sender v.commitments b.proofs.entries
  require (sender ∉ v.uSet) (.duplicate .bulkProof)
  let v := { v with
    provenShares := ← replace v.provenShares sender (some (.ofList points))
    uSet := v.uSet.insert sender }
  if v.uSet.size = p.k then reconstruct (F := F) p.k v else return (v, [])

/-! ## one message -/

/-- the view after a message of a shareholder of the group -/
def step (p : Params) (sender : Index) (payload : Payload F G) (v : View G) : Checked (View G × List Notice) :=
  match payload with
  | .contribution c => return (← v.takeContribution p sender c, [])
  | .verification statuses => return (← v.takeVerification p sender statuses, [])
  | .rebuttal r => return (← v.takeRebuttal p sender r, [])
  | .proof π => return (← v.takeProof p sender π, [])
  | .bulkProof b => v.takeBulkProof p sender b

end View

end DistributedKey
