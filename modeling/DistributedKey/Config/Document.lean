/-
The parameters of a run as a JSON document.

An object names each of the numbers once, in any order, beside fields of other names, which are passed over. An array
holds them in order. The two waits may be left out. Reading ends at the first defect: a repeated field before its value
is read, a missing one at the end of the object, and all of this before anything that follows the document.
-/
import DistributedKey.Config
import DistributedKey.Json.Scan

namespace DistributedKey.Config

open Json (Scan Defect)
open Json.Scan

/-- the numbers of a configuration -/
inductive Field where
  | n
  | k
  | f
  | pollInterval
  | waitTimeout
deriving DecidableEq

namespace Field

/-- in the order of an array -/
def all : List Field := [.n, .k, .f, .pollInterval, .waitTimeout]

def key : Field → String
  | .n => "n"
  | .k => "k"
  | .f => "f"
  | .pollInterval => "poll_interval_ms"
  | .waitTimeout => "wait_timeout_ms"

end Field

/-- the numbers that were given -/
abbrev Given := List (Field × UInt64)

/-- a configuration of the numbers given, if those without a default are -/
def ofGiven? (given : Given) : Option Config := do
  let c : Config := { n := ← given.lookup .n, k := ← given.lookup .k, f := ← given.lookup .f }
  return { c with
    pollIntervalMs := (given.lookup .pollInterval).getD c.pollIntervalMs
    waitTimeoutMs := (given.lookup .waitTimeout).getD c.waitTimeoutMs }

def ofGiven (given : Given) : Scan Config :=
  match ofGiven? given with
  | some c => return c
  | none => throw .mismatch

/-- the value of one field of an object; a field of another name counts for nothing -/
def field (given : Given) (key : String) : Scan Given := do
  match Field.all.find? (·.key = key) with
  | none =>
    expect ':'
    skip
    return given
  | some field =>
    if (given.lookup field).isSome then throw .mismatch
    expect ':'
    return (field, ← word64) :: given

/-- what is left of an object, in at most `fuel` fields -/
def objectWithin : (fuel : Nat) → (first : Bool) → Given → Scan Config
  | 0, _, _ => throw .unfinished
  | fuel + 1, first, given => do
    if (← next) = byte '\x7d' then
      let c ← ofGiven given
      drop
      return c
    unless first do expect ','
    expect '"'
    let given ← field given (← string)
    objectWithin fuel false given

/-- what is left of an array that has yet to give these fields -/
def array : List Field → (first : Bool) → Given → Scan Config
  | [], _, given => do
    let c ← ofGiven given
    expect ']'
    return c
  | field :: rest, first, given => do
    if (← next) = byte ']' then
      let c ← ofGiven given
      drop
      return c
    unless first do
      expect ','
      if (← next) = byte ']' then throw .malformed
    array rest false ((field, ← word64) :: given)

/-- a document with nothing after it -/
def document : Scan Config := do
  let b ← next
  let c ←
    if b = byte '\x7b' then
      drop
      objectWithin ((← get).length + 1) true []
    else if b = byte '[' then
      drop
      array Field.all true []
    else mismatch b
  finish
  return c

/-- reads a configuration from the bytes of its document -/
def ofDocument (text : Bytes) : Except Defect Config := (document.run text).map (·.1)

end DistributedKey.Config
