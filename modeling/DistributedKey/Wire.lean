/-
The byte format of messages: fixed-width numbers least significant byte first, no tags but where a choice is made.

- A list or table is its length in eight bytes and then its elements.
- An optional value is one byte, 0 or 1, and then the value; a choice between named cases is four bytes.
- A value with a canonical byte form is the list of those bytes.
- A record is its fields in order; `Wire.via` reads and writes it as the tuple of its fields.

`decode` answers the value and the bytes after it, so a value can be followed by anything and every part of a record
finds its own end.
-/
import DistributedKey.Suite

namespace DistributedKey

/-- why bytes do not read as a value -/
inductive WireError where
  /-- the input ended early -/
  | endOfInput
  /-- the bytes of an element are not its canonical form -/
  | element (cause : EncodingError)
  /-- a choice that is none of the `bound` cases -/
  | unknownCase (found bound : Nat)
  /-- the first byte of an optional value is neither 0 nor 1 -/
  | optionTag (found : Nat)
deriving DecidableEq

def WireError.message : WireError → String
  | .endOfInput => ""
  | .element cause => cause.message
  | .unknownCase found bound =>
    s!"invalid value: integer `{found}`, expected variant index 0 <= i < {bound}"
  | .optionTag found => toString found

abbrev Decoder (α : Type) := StateT Bytes (Except WireError) α

class Wire (α : Type) where
  encode : α → Bytes
  decode : Decoder α

namespace Wire

variable {α β : Type}

/-- the next `count` bytes -/
def take (count : Nat) : Decoder Bytes := fun bs =>
  if (bs.take count).length = count then .ok (bs.take count, bs.drop count) else .error .endOfInput

/-- a number in `width` bytes -/
def number (width : Nat) : Decoder Nat := return Bytes.toNat (← take width)

instance : Wire UInt8 := ⟨fun n => [n], return UInt8.ofNat (← number 1)⟩

instance : Wire UInt32 := ⟨fun n => Bytes.ofNat 4 n.toNat, return UInt32.ofNat (← number 4)⟩

instance : Wire UInt64 := ⟨fun n => Bytes.ofNat 8 n.toNat, return UInt64.ofNat (← number 8)⟩

/-- `count` values one after the other -/
def many (element : Decoder α) : (count : Nat) → Decoder (List α)
  | 0 => return []
  | count + 1 => return (← element) :: (← many element count)

instance [Wire α] : Wire (List α) where
  encode as := Bytes.ofNat 8 as.length ++ as.flatMap encode
  decode := do many decode (← number 8)

instance [Wire α] {n : Nat} : Wire (Vector α n) where
  encode as := as.toList.flatMap encode
  decode := fun bs => do
    let (as, rest) ← many decode n bs
    if h : as.toArray.size = n then return (⟨as.toArray, h⟩, rest) else .error .endOfInput

instance [Wire α] : Wire (Option α) where
  encode
    | none => [0]
    | some a => 1 :: encode a
  decode := do
    match ← number 1 with
    | 0 => return none
    | 1 => return some (← decode)
    | tag => throw (.optionTag tag)

instance [Wire α] [Wire β] : Wire (α × β) where
  encode p := encode p.1 ++ encode p.2
  decode := return (← decode, ← decode)

/-- an optional case number for each of `bound` cases -/
def case (bound : Nat) (ofNat? : Nat → Option α) : Decoder α := do
  let found ← number 4
  match ofNat? found with
  | some a => return a
  | none => throw (.unknownCase found bound)

def encodeCase (number : Nat) : Bytes := Bytes.ofNat 4 number

instance (priority := low) [Canonical α] : Wire α where
  encode a := encode (Canonical.toBytes a)
  decode := do
    match Canonical.ofBytes (← decode) with
    | .ok a => return a
    | .error cause => throw (.element cause)

/-- the format of `β`, taken over through a pair of maps -/
@[reducible] def via [Wire β] (unpack : α → β) (pack : β → α) : Wire α where
  encode a := encode (unpack a)
  decode := return pack (← decode)

/-- written in increasing order; read in any order, and of several entries with one index the last counts -/
instance [Wire α] : Wire (IndexMap α) := via IndexMap.entries IndexMap.ofList

/-- the value that bytes start with -/
def read [Wire α] (bs : Bytes) : Except WireError α := (decode.run bs).map (·.1)

end Wire

end DistributedKey
