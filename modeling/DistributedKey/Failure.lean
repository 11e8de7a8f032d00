/-
What can go wrong at a shareholder's own side: causes and wording. Faults of others never appear here, they end up
in the alert log.

A fatal failure is one of the machine and not of the protocol: the computation is abandoned, and whoever asked gets
no answer.
-/
import DistributedKey.Wire

namespace DistributedKey

inductive Failure where
  /-- the three numbers do not satisfy the resilience bound -/
  | invalidParameters (n k f : Nat)
  | indexOutOfRange (index : Index) (n : Nat)
  | keyCountMismatch (given n : Nat)
  /-- the private key does not belong to the public key at this index -/
  | privateKeyMismatch (index : Index)
  /-- a wait for something took this many milliseconds -/
  | waitTimeout (awaited : String) (ms : Nat)
  | stopped
  | lockPoisoned
  | workerPanicked
  /-- shareholders finished with different results -/
  | disagreement (matter : String)
  | malformed (cause : WireError)
  | encryption
  /-- a product is no machine word -/
  | overflow
  /-- a list of this many elements takes more bytes than can be addressed -/
  | tooLong (count : Nat)
deriving DecidableEq

/-- a span of milliseconds in the largest unit of which it has one whole, without trailing zeros -/
def spanText (ms : Nat) : String :=
  if ms = 0 then "0ns"
  else if ms < 1000 then s!"{ms}ms"
  else
    let fraction := [ms / 100 % 10, ms / 10 % 10, ms % 10]
    let digits := (fraction.reverse.dropWhile (· = 0)).reverse
    let point := if digits.isEmpty then "" else "."
    s!"{ms / 1000}{point}" ++ String.join (digits.map toString) ++ "s"

def Failure.message : Failure → String
  | .invalidParameters n k f => s!"invalid parameters n={n}, k={k}, f={f}: require n >= 1 and f < k <= n - 2f"
  | .indexOutOfRange index n => s!"index {index} is not in range [0, {n})"
  | .keyCountMismatch given n => s!"got {given} public keys for {n} shareholders"
  | .privateKeyMismatch index => s!"private key does not match the public key at index {index}"
  | .waitTimeout awaited ms => "timed out after " ++ spanText ms ++ " waiting for " ++ awaited
  | .stopped => "the node was stopped"
  | .lockPoisoned => "a lock was poisoned by a panicking thread"
  | .workerPanicked => "the worker thread panicked"
  | .disagreement matter => "shareholders disagree on the " ++ matter
  | .malformed cause => "de(serialization) failed: " ++ cause.message
  | .encryption => "could not encrypt share: aead::Error"
  | .overflow => "attempt to multiply with overflow"
  | .tooLong _ => "capacity overflow"

/-- ends the computation instead of answering it -/
def Failure.fatal : Failure → Bool
  | .overflow | .tooLong _ => true
  | _ => false

/-- refuses a list of `count` elements of `width` bytes that cannot be addressed -/
def checkLength (count width : Nat) : Except Failure Unit :=
  if Bytes.addressable count width then .ok () else .error (.tooLong count)

end DistributedKey
