/-
Reading JSON text from left to right, byte by byte.

The first byte that cannot stand where it does decides how reading ends: the text is `malformed` there, or `unfinished`
if there is none. A value of another kind than the one that was asked for is a `mismatch`, which is found only after a
number, string or word has been read to its end, but before the inside of an array or object is looked at.

- `string` reads a string to its closing quote, with its escapes resolved.
- `word64` reads a number of 64 bits. Everything else a number can be is a mismatch, but a number beyond the range of
  binary64 is malformed.
- `skip` passes over any value, however deeply nested, and looks only at its shape: escapes need not pair up and
  numbers may have any size.
-/
import DistributedKey.Bytes

namespace DistributedKey.Json

/-- why reading ends -/
inductive Defect where
  /-- not the kind of value asked for, or not the fields -/
  | mismatch
  | malformed
  /-- the text ends too early -/
  | unfinished
deriving DecidableEq

def Defect.name : Defect → String
  | .mismatch => "data"
  | .malformed => "syntax"
  | .unfinished => "eof"

/-- a reader of a prefix, which leaves the rest -/
abbrev Scan (α : Type) := StateT Bytes (Except Defect) α

namespace Scan

def byte (c : Char) : UInt8 := UInt8.ofNat c.toNat

def isDigit (b : UInt8) : Bool := byte '0' ≤ b && b ≤ byte '9'

def isBlank (b : UInt8) : Bool := b = 32 || b = 10 || b = 9 || b = 13

/-- the next byte, left where it is -/
def peek? : Scan (Option UInt8) := return (← get).head?

/-- the next byte that is not blank, left where it is -/
def next? : Scan (Option UInt8) := do
  modify (·.dropWhile isBlank)
  peek?

def next : Scan UInt8 := do
  match ← next? with
  | some b => return b
  | none => throw .unfinished

def drop : Scan Unit := modify (·.drop 1)

/-- passes over the next byte that is not blank, which has to be this one -/
def expect (c : Char) : Scan Unit := do
  if (← next) ≠ byte c then throw .malformed
  drop

/-- the digits that follow -/
def digits : Scan (List Nat) := fun bs =>
  .ok ((bs.takeWhile isDigit).map (·.toNat - 48), bs.dropWhile isDigit)

/-- the bytes that are to follow -/
def exactly (expected : Bytes) : Scan Unit := fun bs =>
  match expected, bs with
  | [], bs => .ok ((), bs)
  | _ :: _, [] => .error .unfinished
  | e :: expected, b :: bs => if e = b then exactly expected bs else .error .malformed

/-! ## strings -/

def hexDigit? (b : UInt8) : Option Nat :=
  if isDigit b then some (b.toNat - 48)
  else if byte 'a' ≤ b && b ≤ byte 'f' then some (b.toNat - 87)
  else if byte 'A' ≤ b && b ≤ byte 'F' then some (b.toNat - 55)
  else none

/-- a code unit of four hexadecimal digits -/
def unit? (a b c d : UInt8) : Option Nat := do
  return 4096 * (← hexDigit? a) + 256 * (← hexDigit? b) + 16 * (← hexDigit? c) + (← hexDigit? d)

/-- the byte that a letter after a backslash stands for -/
def escaped? (b : UInt8) : Option UInt8 :=
  if b = byte '"' ∨ b = byte '\\' ∨ b = byte '/' then some b
  else if b = byte 'b' then some 8
  else if b = byte 'f' then some 12
  else if b = byte 'n' then some 10
  else if b = byte 'r' then some 13
  else if b = byte 't' then some 9
  else none

def utf8 (code : Nat) : Bytes := Bytes.ofText (String.singleton (Char.ofNat code))

/-- the rest of a string up to its closing quote. `lead` is the first half of a surrogate pair whose second half has
to be next; in a `lax` string halves stand alone, and stand for nothing -/
def stringFrom (lax : Bool) : (lead : Option Nat) → Bytes → Except Defect (Bytes × Bytes)
  | _, [] => .error .unfinished
  | lead, 0x5C :: rest =>
    match rest with
    | [] => .error .unfinished
    | 0x75 :: a :: b :: c :: d :: rest =>
      match unit? a b c d with
      | none => .error .malformed
      | some u =>
        match lead with
        | some h =>
          if u < 0xDC00 || 0xDFFF < u then .error .malformed
          else do
            let (s, rest) ← stringFrom lax none rest
            return (utf8 (0x10000 + 1024 * (h - 0xD800) + (u - 0xDC00)) ++ s, rest)
        | none =>
          if u < 0xD800 || 0xDFFF < u then do
            let (s, rest) ← stringFrom lax none rest
            return (utf8 u ++ s, rest)
          else if lax then stringFrom lax none rest
          else if 0xDC00 ≤ u then .error .malformed
          else stringFrom lax (some u) rest
    | 0x75 :: _ => .error .unfinished
    | b :: rest =>
      match lead, escaped? b with
      | none, some e => do
        let (s, rest) ← stringFrom lax none rest
        return (e :: s, rest)
      | _, _ => .error .malformed
  | some _, _ :: _ => .error .malformed
  | none, b :: rest =>
    if b = byte '"' then .ok ([], rest)
    else if b < 32 then .error .malformed
    else do
      let (s, rest) ← stringFrom lax none rest
      return (b :: s, rest)

/-- a string after its opening quote; its bytes have to be text -/
def string : Scan String := do
  match String.fromUTF8? ⟨(← stringFrom false none : Bytes).toArray⟩ with
  | some s => return s
  | none => throw .malformed

/-- a string after its opening quote, of which only the end matters -/
def skipString : Scan Unit := do
  let _ ← (stringFrom true none : Scan Bytes)

/-! ## numbers -/

/-- the binary64 number nearest to a natural number, of two the even one -/
def nearestBinary64 (n : Nat) : Nat :=
  let unit := Nat.pow 2 (n.log2 - 52)
  let q := n / unit
  if unit < 2 * (n % unit) ∨ (unit = 2 * (n % unit) ∧ q % 2 = 1) then (q + 1) * unit else q * unit

/-- whether `significand · 10^exponent`, each factor rounded to binary64, is beyond its range -/
def outOfRange (significand : Nat) (exponent : Int) : Bool :=
  significand ≠ 0 &&
    (308 < exponent ||
      Nat.pow 2 1024 - Nat.pow 2 970 ≤ nearestBinary64 significand * nearestBinary64 (Nat.pow 10 exponent.toNat) && 0 ≤ exponent)

/-- appends digits as long as the number has 64 bits; the number and how many digits were taken -/
def extend (significand : Nat) : List Nat → Nat × Nat
  | [] => (significand, 0)
  | d :: rest =>
    if 10 * significand + d < UInt64.size then
      let (s, taken) := extend (10 * significand + d) rest
      (s, taken + 1)
    else (significand, 0)

/-- after the letter of an exponent -/
def exponent : Scan Int := do
  let sign ← peek?
  if sign = byte '+' ∨ sign = byte '-' then drop
  match ← peek? with
  | none => throw .unfinished
  | some b =>
    if !isDigit b then throw .malformed
    let size : Nat := (← digits).foldl (10 * · + ·) 0
    return if sign = byte '-' then -(size : Int) else size

/-- a number after its sign: its leading digits, the power of ten they are multiplied with, and whether it is
written as an integer -/
def magnitude : Scan (Nat × Int × Bool) := do
  match ← peek? with
  | none => throw .unfinished
  | some b =>
    if !isDigit b then throw .malformed
    let whole ← digits
    if b = byte '0' ∧ whole.length ≠ 1 then throw .malformed
    let (significand, taken) := extend 0 whole
    let mut parts : Nat × Int × Bool := (significand, (whole.length - taken : Nat), taken = whole.length)
    if (← peek?) = byte '.' then
      drop
      let fraction ← digits
      if fraction.isEmpty then throw (if (← peek?).isNone then .unfinished else .malformed)
      let (significand, taken) := extend significand fraction
      parts := (significand, parts.2.1 - taken, false)
    let mark ← peek?
    if mark = byte 'e' ∨ mark = byte 'E' then
      drop
      parts := (parts.1, parts.2.1 + (← exponent), false)
    return parts

/-- a number, if it is a natural one of 64 bits -/
def number? : Scan (Option UInt64) := do
  let negative := (← peek?) = byte '-'
  if negative then drop
  let (significand, exponent, integer) ← magnitude
  if integer then return if negative then none else some (UInt64.ofNat significand)
  if outOfRange significand exponent then throw .malformed
  return none

/-- passes over a number by its grammar alone -/
def skipNumber : Scan Unit := do
  if (← peek?) = byte '-' then drop
  let first ← peek?
  let whole ← digits
  if whole.isEmpty ∨ (first = byte '0' ∧ whole.length ≠ 1) then throw .malformed
  if (← peek?) = byte '.' then
    drop
    if (← digits).isEmpty then throw .malformed
  let mark ← peek?
  if mark = byte 'e' ∨ mark = byte 'E' then
    drop
    let sign ← peek?
    if sign = byte '+' ∨ sign = byte '-' then drop
    if (← digits).isEmpty then throw .malformed

/-! ## values -/

/-- a value that starts with `b` and is not of the kind asked for -/
def mismatch {α : Type} (b : UInt8) : Scan α := do
  if b = byte 'n' then exactly (Bytes.ofText "null")
  else if b = byte 't' then exactly (Bytes.ofText "true")
  else if b = byte 'f' then exactly (Bytes.ofText "false")
  else if b = byte '"' then
    drop
    let _ ← string
  else if b = byte '-' ∨ isDigit b then
    let _ ← number?
  else if b ≠ byte '[' ∧ b ≠ byte '\x7b' then throw .malformed
  throw .mismatch

/-- a natural number of 64 bits -/
def word64 : Scan UInt64 := do
  let b ← next
  if b = byte '-' ∨ isDigit b then
    match ← number? with
    | some n => return n
    | none => throw .mismatch
  else mismatch b

/-- what surrounds a value -/
inductive Frame where
  | array
  | object
deriving DecidableEq

def Frame.closing : Frame → UInt8
  | .array => byte ']'
  | .object => byte '\x7d'

/-- what is to come next -/
inductive Place where
  /-- a value -/
  | value
  /-- an entry of the innermost frame, or its end if nothing has been read in it -/
  | entry (first : Bool)
  /-- a comma or the end of the innermost frame -/
  | after
deriving DecidableEq

/-- passes over a value that starts with `b` and has nothing inside -/
def skipScalar (b : UInt8) : Scan Unit := do
  if b = byte 'n' then exactly (Bytes.ofText "null")
  else if b = byte 't' then exactly (Bytes.ofText "true")
  else if b = byte 'f' then exactly (Bytes.ofText "false")
  else if b = byte '"' then
    drop
    skipString
  else if b = byte '-' ∨ isDigit b then skipNumber
  else throw .malformed

/-- passes over what is left inside of the open frames, innermost first, in at most `fuel` steps -/
def skipWithin : (fuel : Nat) → Place → List Frame → Scan Unit
  | 0, _, _ => throw .unfinished
  | fuel + 1, .value, frames => do
    let b ← next
    if b = byte '[' then
      drop
      skipWithin fuel (.entry true) (.array :: frames)
    else if b = byte '\x7b' then
      drop
      skipWithin fuel (.entry true) (.object :: frames)
    else
      skipScalar b
      skipWithin fuel .after frames
  | _ + 1, .entry _, [] => return
  | fuel + 1, .entry first, frame :: frames => do
    let b ← next
    if first && b = frame.closing then
      drop
      skipWithin fuel .after frames
    else
      if frame = .object then
        expect '"'
        skipString
        expect ':'
      skipWithin fuel .value (frame :: frames)
  | _ + 1, .after, [] => return
  | fuel + 1, .after, frame :: frames => do
    let b ← next
    if b = byte ',' then
      drop
      skipWithin fuel (.entry false) (frame :: frames)
    else if b = frame.closing then
      drop
      skipWithin fuel .after frames
    else throw .malformed

/-- passes over a value; every two steps take at least one byte -/
def skip : Scan Unit := do skipWithin (2 * (← get).length + 2) .value []

/-- nothing but blanks is left -/
def finish : Scan Unit := do
  if (← next?).isSome then throw .malformed

end Scan

end DistributedKey.Json
