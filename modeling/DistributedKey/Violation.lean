/-
What another shareholder can do wrong: the cause, its wording, and the condition it is reported under.
-/
import DistributedKey.Opcode
import DistributedKey.Opening

namespace DistributedKey

inductive Violation where
  | duplicate (kind : Opcode)
  | unknownOpcode (code : UInt8)
  | unknownSender (sender : Index)
  /-- the body does not read as what the opcode announces -/
  | malformed (kind : Opcode) (cause : WireError)
  /-- no share is addressed to the reader -/
  | missingShare
  | undecryptable
  | malformedShare (cause : WireError)
  | wrongCommitmentCount (found expected : Nat)
  /-- the commitment at this position is the identity, off the curve or outside of the subgroup -/
  | invalidCommitment (position : Nat)
  | wrongShareIndex (found expected : Index)
  | shareMismatch
  | wrongVectorLength (found expected : Nat)
  | badRebuttal (reason : String)
  | stateViolation (reason : String)
  | invalidProof (cause : OpeningError)
  | invalidBulkProof (reason : String)
deriving DecidableEq

namespace Violation

def condition : Violation → Condition
  | .duplicate _ => .duplicateMessage
  | .unknownOpcode _ => .unrecognizedMessageType
  | .unknownSender _ => .stateViolation
  | .malformed kind _ => kind.decodeFailure
  | .missingShare | .undecryptable | .malformedShare _ => .invalidCiphertext
  | .wrongCommitmentCount .. | .invalidCommitment _ | .wrongShareIndex .. | .shareMismatch => .inconsistentShare
  | .wrongVectorLength .. => .invalidVerificationVector
  | .badRebuttal _ => .badRebuttal
  | .stateViolation _ => .stateViolation
  | .invalidProof _ => .invalidProof
  | .invalidBulkProof _ => .invalidBulkProof

/-- the wording, without the cause of a byte string that does not read -/
def message : Violation → String
  | .duplicate kind => s!"duplicate {kind.name} message"
  | .unknownOpcode code => s!"unknown opcode {code}"
  | .unknownSender sender => s!"sender {sender} is not a shareholder"
  | .malformed kind _ => s!"malformed {kind.name} body"
  | .missingShare => "no share addressed to us"
  | .undecryptable => "could not decrypt share: aead::Error"
  | .malformedShare _ => "decrypted share is malformed"
  | .wrongCommitmentCount found expected => s!"commitment vector has {found} entries, expected {expected}"
  | .invalidCommitment position =>
    s!"commitment {position} is not a valid non-identity point of the prime-order subgroup"
  | .wrongShareIndex found expected => s!"share is for index {found}, expected {expected}"
  | .shareMismatch => "share does not match the commitment vector"
  | .wrongVectorLength found expected => s!"verification vector has {found} entries, expected {expected}"
  | .badRebuttal reason => "bad rebuttal: " ++ reason
  | .stateViolation reason => "state violation: " ++ reason
  | .invalidProof cause => "invalid proof: " ++ cause.message
  | .invalidBulkProof reason => "invalid bulk proof: " ++ reason

end Violation

end DistributedKey
