/-
Numbers on a command line: decimal digits, with a plus sign in front if one likes, below a bound.

Digits are taken from the left, and the first one that is no digit or goes beyond the bound is reported.
-/

namespace DistributedKey

inductive NumeralError where
  | empty
  | invalidDigit
  | tooLarge
deriving DecidableEq

def NumeralError.message : NumeralError → String
  | .empty => "cannot parse integer from empty string"
  | .invalidDigit => "invalid digit found in string"
  | .tooLarge => "number too large to fit in target type"

namespace Numeral

/-- appends digits to a number -/
def extend (bound : Nat) : (value : Nat) → List Char → Except NumeralError Nat
  | value, [] => .ok value
  | value, c :: rest =>
    if c < '0' ∨ '9' < c then .error .invalidDigit
    else
      let value := 10 * value + (c.toNat - 48)
      if value < bound then extend bound value rest else .error .tooLarge

/-- the number below `bound` that is written -/
def read (bound : Nat) (text : String) : Except NumeralError Nat :=
  match text.toList with
  | [] => .error .empty
  | ['+'] => .error .invalidDigit
  | '+' :: digits => extend bound 0 digits
  | digits => extend bound 0 digits

def word32 (text : String) : Except NumeralError UInt32 := (read UInt32.size text).map UInt32.ofNat

def word64 (text : String) : Except NumeralError UInt64 := (read UInt64.size text).map UInt64.ofNat

end Numeral

end DistributedKey
