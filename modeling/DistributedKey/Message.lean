/-
The messages of the protocol and the envelopes they travel in.

- A dealer's `Contribution` carries its commitments in the clear and one sealed share a shareholder.
- A verification vector is the sender's judgment of every dealer; unknown means that no contribution was processed.
- A `Rebuttal` reveals the share that the accuser was dealt.
- An `Opening` proves a dealer's constant term, a `BulkProof` the shares that the sender holds of some dealers.

An envelope is the sender, the tag of the kind and the encoded body. `Payload.toEnvelope` writes one and
`Envelope.payload` reads it; bytes after a body are not looked at.
-/
import DistributedKey.Violation
import DistributedKey.SealedBox
import DistributedKey.Status

namespace DistributedKey

/-- the values of a dealer's two polynomials for one shareholder -/
structure SharePair (F : Type) where
  index : Index
  value : F
  blinding : F
deriving DecidableEq

structure EncryptedShare (G : Type) where
  recipient : Index
  /-- a share pair, sealed to the recipient -/
  secret : SealedBox G
deriving DecidableEq

structure Contribution (G : Type) where
  commitments : Poly G
  shares : List (EncryptedShare G)
deriving DecidableEq

structure Rebuttal (F : Type) where
  accuser : Index
  share : SharePair F
deriving DecidableEq

/-- a proof of the share received from each dealer of a set -/
structure BulkProof (F G : Type) where
  proofs : IndexMap (Opening F G)
deriving DecidableEq

inductive Payload (F G : Type) where
  | contribution (c : Contribution G)
  | verification (statuses : List (Option Status))
  | rebuttal (r : Rebuttal F)
  | proof (π : Opening F G)
  | bulkProof (b : BulkProof F G)
deriving DecidableEq

/-- an entry of the broadcast log; the sender is authentic -/
structure Envelope where
  sender : Index
  opcode : UInt8
  body : Bytes
deriving DecidableEq

variable {F G : Type}

instance [Wire F] : Wire (SharePair F) := .via (fun s => (s.index, s.value, s.blinding)) fun (i, v, b) => ⟨i, v, b⟩
instance [Wire G] : Wire (EncryptedShare G) := .via (fun s => (s.recipient, s.secret)) fun (r, s) => ⟨r, s⟩
instance [Wire G] : Wire (Contribution G) := .via (fun c => (c.commitments, c.shares)) fun (c, s) => ⟨c, s⟩
instance [Wire F] : Wire (Rebuttal F) := .via (fun r => (r.accuser, r.share)) fun (a, s) => ⟨a, s⟩
instance [Wire F] [Wire G] : Wire (BulkProof F G) := .via BulkProof.proofs BulkProof.mk
instance : Wire Envelope := .via (fun e => (e.sender, e.opcode, e.body)) fun (s, o, b) => ⟨s, o, b⟩

namespace Payload

def opcode : Payload F G → Opcode
  | .contribution _ => .contribution
  | .verification _ => .verification
  | .rebuttal _ => .rebuttal
  | .proof _ => .proof
  | .bulkProof _ => .bulkProof

theorem exists_contribution {x : Payload F G} (h : x.opcode = .contribution) : ∃ c, x = .contribution c := by
  cases x with
  | contribution c => exact ⟨c, rfl⟩
  | verification _ | rebuttal _ | proof _ | bulkProof _ => cases h

theorem exists_rebuttal {x : Payload F G} (h : x.opcode = .rebuttal) : ∃ b, x = .rebuttal b := by
  cases x with
  | rebuttal b => exact ⟨b, rfl⟩
  | contribution _ | verification _ | proof _ | bulkProof _ => cases h

theorem exists_proof {x : Payload F G} (h : x.opcode = .proof) : ∃ π, x = .proof π := by
  cases x with
  | proof π => exact ⟨π, rfl⟩
  | contribution _ | verification _ | rebuttal _ | bulkProof _ => cases h

theorem exists_bulkProof {x : Payload F G} (h : x.opcode = .bulkProof) : ∃ b, x = .bulkProof b := by
  cases x with
  | bulkProof b => exact ⟨b, rfl⟩
  | contribution _ | verification _ | rebuttal _ | proof _ => cases h

variable [Wire F] [Wire G]

def body : Payload F G → Bytes
  | .contribution c => Wire.encode c
  | .verification statuses => Wire.encode statuses
  | .rebuttal r => Wire.encode r
  | .proof π => Wire.encode π
  | .bulkProof b => Wire.encode b

def toEnvelope (p : Payload F G) (sender : Index) : Envelope := ⟨sender, p.opcode.code, p.body⟩

theorem opcode_toEnvelope (p : Payload F G) (sender : Index) : (p.toEnvelope sender).opcode = p.opcode.code := rfl

/-- the message of a kind that a body starts with -/
def read (kind : Opcode) (body : Bytes) : Except WireError (Payload F G) :=
  match kind with
  | .contribution => (Wire.read body).map .contribution
  | .verification => (Wire.read body).map .verification
  | .rebuttal => (Wire.read body).map .rebuttal
  | .proof => (Wire.read body).map .proof
  | .bulkProof => (Wire.read body).map .bulkProof

end Payload

/-- the message in an envelope -/
def Envelope.payload [Wire F] [Wire G] (e : Envelope) : Except Violation (Payload F G) :=
  match Opcode.ofCode? e.opcode with
  | none => .error (.unknownOpcode e.opcode)
  | some kind =>
    match Payload.read kind e.body with
    | .ok p => .ok p
    | .error cause => .error (.malformed kind cause)

end DistributedKey
