/-
The five kinds of message, the tag that names each in an envelope, and the conditions that alerts report.
-/
import DistributedKey.Wire

namespace DistributedKey

/-- kind of a message -/
inductive Opcode where
  | contribution
  | verification
  | rebuttal
  | proof
  | bulkProof
deriving DecidableEq

/-- the category of a violation -/
inductive Condition where
  | duplicateMessage
  | inconsistentShare
  | invalidShareContribution
  | invalidVerificationVector
  | badRebuttal
  | stateViolation
  | invalidProof
  | invalidBulkProof
  | unrecognizedMessageType
  | invalidCiphertext
deriving DecidableEq

namespace Condition

/-- in the order of their numbers -/
def all : List Condition :=
  [.duplicateMessage, .inconsistentShare, .invalidShareContribution, .invalidVerificationVector, .badRebuttal,
   .stateViolation, .invalidProof, .invalidBulkProof, .unrecognizedMessageType, .invalidCiphertext]

def name : Condition → String
  | .duplicateMessage => "DuplicateMessage"
  | .inconsistentShare => "InconsistentShare"
  | .invalidShareContribution => "InvalidShareContribution"
  | .invalidVerificationVector => "InvalidVerificationVector"
  | .badRebuttal => "BadRebuttal"
  | .stateViolation => "StateViolation"
  | .invalidProof => "InvalidProof"
  | .invalidBulkProof => "InvalidBulkProof"
  | .unrecognizedMessageType => "UnrecognizedMessageType"
  | .invalidCiphertext => "InvalidCiphertext"

def number (c : Condition) : Nat := all.idxOf c

def ofName? (s : String) : Option Condition := all.find? (·.name = s)

instance : Wire Condition := ⟨fun c => Wire.encodeCase c.number, Wire.case 10 (all[·]?)⟩

end Condition

namespace Opcode

def code : Opcode → UInt8
  | .contribution => 1
  | .verification => 2
  | .rebuttal => 3
  | .proof => 4
  | .bulkProof => 5

def ofCode? : UInt8 → Option Opcode
  | 1 => some .contribution
  | 2 => some .verification
  | 3 => some .rebuttal
  | 4 => some .proof
  | 5 => some .bulkProof
  | _ => none

def name : Opcode → String
  | .contribution => "share contribution"
  | .verification => "verification vector"
  | .rebuttal => "rebuttal"
  | .proof => "zk proof"
  | .bulkProof => "bulk zk proof"

/-- what is reported when a body does not read as this kind of message -/
def decodeFailure : Opcode → Condition
  | .contribution => .invalidShareContribution
  | .verification => .invalidVerificationVector
  | .rebuttal => .badRebuttal
  | .proof => .invalidProof
  | .bulkProof => .invalidBulkProof

theorem ofCode?_code (o : Opcode) : ofCode? o.code = some o := by cases o <;> rfl

end Opcode

end DistributedKey
