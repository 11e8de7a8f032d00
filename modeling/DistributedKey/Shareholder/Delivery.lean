/-
One entry of the log at one shareholder.

The view takes the message first (`View.step`); what it refuses becomes an alert against the sender and changes
nothing else. What it accepts may make the shareholder act:

- it judges a contribution, and announces its judgments once it accepted `n - f` of them;
- it answers a complaint about itself by revealing the share in question, and adopts the share that an accepted
  rebuttal of its own complaint reveals;
- when QUAL is frozen it proves its constant term if it is a member, and sums up its final share as soon as it holds
  a share of every member;
- when R is frozen it proves the shares it holds of the members of R, if it holds them all.

A contribution that it judges invalid stays in the view and raises an alert all the same.
-/
import DistributedKey.Shareholder.State

namespace DistributedKey.Shareholder

open Checked

variable {F G : Type}

/-- the state after a delivery, what is to be broadcast, and what the operator is told -/
structure Response (F G : Type) where
  shareholder : Shareholder F G
  outgoing : List (Payload F G)
  notices : List Notice

/-- a violation by the sender: an alert, and nothing to broadcast -/
def refused (s : Shareholder F G) (sender : Index) (cause : Violation) : Response F G :=
  ⟨{ s with alerts := s.alerts.record ⟨s.index, sender, cause.condition⟩ }, [], [.violated cause]⟩

section

variable [Suite F G] [NatCast F] [Zero F] [Add F] [Sub F] [Mul F] [SMul F F] [Zero G] [Add G] [SMul F G]
  [Wire F] [Wire G] [Sampled F] [DecidableEq F] [DecidableEq G]

/-! ## judging a contribution -/

/-- the first share that is addressed to this shareholder, opened and read -/
def openShare (s : Shareholder F G) (shares : List (EncryptedShare G)) : Except Violation (SharePair F) :=
  match shares.find? (·.recipient = s.index) with
  | none => .error .missingShare
  | some share =>
    match share.secret.decrypt? s.privateKey with
    | none => .error .undecryptable
    | some plaintext =>
      match Wire.read plaintext with
      | .ok pair => .ok pair
      | .error cause => .error (.malformedShare cause)

/-- the share dealt to this shareholder, if it opens the commitments -/
def judge (s : Shareholder F G) (c : Contribution G) : Except Violation (SharePair F) := do
  let pair ← s.openShare c.shares
  View.checkCommitments s.params.k c.commitments
  if pair.index ≠ s.index then throw (.wrongShareIndex pair.index s.index)
  if ¬ View.shareCorrect pair s.index c.commitments then throw .shareMismatch
  return pair

/-- broadcasts the own judgments, once, when `n - f` of them are successes -/
def announce (s : Shareholder F G) : Checked (Shareholder F G × List (Payload F G)) := do
  if s.vectorSent then return (s, [])
  let quorum ← minus s.params.n s.params.f
  if quorum ≤ s.ownStatuses.count (some .success) then
    return ({ s with vectorSent := true }, [.verification s.ownStatuses])
  else return (s, [])

/-- a contribution that the view has taken in -/
def onContribution (s : Shareholder F G) (dealer : Index) (c : Contribution G) : Checked (Response F G) := do
  match s.judge c with
  | .ok pair =>
    let s := { s with
      ownStatuses := ← replace s.ownStatuses dealer (some .success)
      shares := ← replace s.shares dealer (some pair) }
    let (s, outgoing) ← s.announce
    return ⟨s, outgoing, []⟩
  | .error cause =>
    let s := { s with ownStatuses := ← replace s.ownStatuses dealer (some .complaint) }
    return s.refused dealer cause

/-! ## the final share and QUAL -/

/-- the sum of the shares of dealers; none when one is missing -/
def sumShares (shares : List (Option (SharePair F))) : List Index → (value blinding : F) → Checked (Option (F × F))
  | [], value, blinding => return some (value, blinding)
  | dealer :: rest, value, blinding => do
    match ← entry shares dealer with
    | some pair => sumShares shares rest (value + pair.value) (blinding + pair.blinding)
    | none => return none

/-- the final share, once QUAL is frozen and a share of every member is there -/
def tryFinalShare (s : Shareholder F G) : Checked (Shareholder F G) := do
  if s.finalShare.isSome then return s
  match s.view.qual with
  | none => return s
  | some qual =>
    match ← sumShares s.shares qual.elems 0 0 with
    | some (value, blinding) => return { s with finalShare := some ⟨s.index, value, blinding⟩ }
    | none => return s

/-- when the last message froze QUAL: the final share, and the proof of a member's constant term -/
def onQual (s : Shareholder F G) (before : View G) : Checked (Shareholder F G × List (Payload F G)) := do
  match before.qual, s.view.qual with
  | none, some qual =>
    let s ← s.tryFinalShare
    if s.index ∈ qual then
      let (π, rng) := Opening.prove (← present s.f1.constant?) (← present s.f2.constant?) s.rng
      return ({ s with rng }, [.proof π])
    else return (s, [])
  | _, _ => return (s, [])

def onVerification (s : Shareholder F G) (before : View G) (reporter : Index) (statuses : List (Option Status)) :
    Checked (Response F G) := do
  let own ← entry statuses s.index
  let rebuttals := if own = some .complaint then [.rebuttal ⟨reporter, pairFor s.f1 s.f2 reporter⟩] else []
  let (s, outgoing) ← s.onQual before
  return ⟨s, rebuttals ++ outgoing, []⟩

def onRebuttal (s : Shareholder F G) (before : View G) (accused : Index) (r : Rebuttal F) :
    Checked (Response F G) := do
  let s ← if r.accuser = s.index then
      pure { s with
        ownStatuses := ← replace s.ownStatuses accused (some .success)
        shares := ← replace s.shares accused (some r.share) }
    else pure s
  let (s, outgoing) ← s.onQual before
  return ⟨← s.tryFinalShare, outgoing, []⟩

/-! ## R -/

/-- proofs of the shares held of dealers, one after the other; none when one is missing -/
def proveShares (shares : List (Option (SharePair F))) :
    List Index → Random → Checked (Option (List (Index × Opening F G)) × Random)
  | [], rng => return (some [], rng)
  | dealer :: rest, rng => do
    match ← entry shares dealer with
    | none => return (none, rng)
    | some pair =>
      let (π, rng) := Opening.prove pair.value pair.blinding rng
      let (others, rng) ← proveShares shares rest rng
      return (others.map ((dealer, π) :: ·), rng)

/-- when the last message froze R: a proof of the shares held of its members -/
def onProof (s : Shareholder F G) (before : View G) : Checked (Response F G) := do
  match before.rSet, s.view.rSet with
  | none, some r =>
    let (proofs, rng) ← proveShares s.shares r.elems s.rng
    let s := { s with rng }
    match proofs with
    | some proofs => return ⟨s, [.bulkProof ⟨.ofList proofs⟩], []⟩
    | none => return ⟨s, [], [.missingShareOfR]⟩
  | _, _ => return ⟨s, [], []⟩

/-! ## delivery -/

/-- what a message that the view has taken in makes the shareholder do -/
def react (s : Shareholder F G) (before : View G) (sender : Index) (payload : Payload F G) :
    Checked (Response F G) :=
  match payload with
  | .contribution c => s.onContribution sender c
  | .verification statuses => s.onVerification before sender statuses
  | .rebuttal r => s.onRebuttal before sender r
  | .proof _ => s.onProof before
  | .bulkProof _ => return ⟨s, [], []⟩

variable [One F] [Inv F]

def handle (s : Shareholder F G) (e : Envelope) : Checked (Response F G) := do
  match (e.payload : Except Violation (Payload F G)) with
  | .error cause => refuse cause
  | .ok payload =>
    require (s.group.contains e.sender) (.unknownSender e.sender)
    let (view, notices) ← s.view.step s.params e.sender payload
    let r ← { s with view }.react s.view e.sender payload
    return { r with notices := notices ++ r.notices }

/-- takes in one entry of the log; none only if a handler fails. A silent shareholder sends nothing -/
def deliver (s : Shareholder F G) (e : Envelope) : Option (Response F G) :=
  match s.handle e with
  | .ok r => some { r with outgoing := if s.behavior = .silent then [] else r.outgoing }
  | .error (.refused cause) => some (s.refused e.sender cause)
  | .error .crash => none

end

end DistributedKey.Shareholder
