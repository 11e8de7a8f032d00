/-
Byte strings, as lists of bytes.

- `ofNat width n` writes a number in `width` bytes, least significant first; `toNat` reads one back.
- `blocks size bs` cuts a string into pieces of `size` bytes, the last one possibly shorter.
- `toHex` and `ofHex?` are the lower-case hexadecimal form.
- `addressable` bounds the bytes of one list by half of the address space.
-/

namespace DistributedKey

abbrev Bytes := List UInt8

namespace Bytes

/-- a list of `count` elements of `width` bytes takes less than half of the address space -/
def addressable (count width : Nat) : Bool := count * width < Nat.pow 2 63

/-- the `width` low bytes of `n`, least significant first -/
def ofNat : (width n : Nat) → Bytes
  | 0, _ => []
  | width + 1, n => UInt8.ofNat (n % 256) :: ofNat width (n / 256)

/-- the number a string stands for, least significant byte first -/
def toNat : Bytes → Nat
  | [] => 0
  | b :: bs => b.toNat + 256 * toNat bs

/-- the same number written most significant byte first -/
def ofNatBE (width n : Nat) : Bytes := (ofNat width n).reverse

def toNatBE (bs : Bytes) : Nat := toNat bs.reverse

def ofText (s : String) : Bytes := s.toUTF8.toList

/-- consecutive pieces of `size` bytes; only the last one may be shorter -/
def blocks (size : Nat) (bs : Bytes) : List Bytes :=
  if bs = [] ∨ size = 0 then [] else bs.take size :: blocks size (bs.drop size)
termination_by bs.length
decreasing_by
  rename_i h
  have := List.length_pos_iff.2 fun e => h (Or.inl e)
  simp only [List.length_drop]
  omega

/-- zeros that fill `len` up to a multiple of `size` -/
def padding (size len : Nat) : Bytes := List.replicate ((size - len % size) % size) 0

/-- bytewise exclusive or; as long as the shorter string -/
def xor (as bs : Bytes) : Bytes := as.zipWith (· ^^^ ·) bs

/-! ## hexadecimal -/

def hexDigit (d : Nat) : Char := if d < 10 then Char.ofNat (48 + d) else Char.ofNat (87 + d)

def hexValue? (c : Char) : Option Nat :=
  if '0' ≤ c ∧ c ≤ '9' then some (c.toNat - 48)
  else if 'a' ≤ c ∧ c ≤ 'f' then some (c.toNat - 87)
  else none

def toHex (bs : Bytes) : String :=
  String.ofList (bs.flatMap fun b => [hexDigit (b.toNat / 16), hexDigit (b.toNat % 16)])

/-- two digits a byte, high digit first -/
def ofHexDigits? : List Char → Option Bytes
  | [] => some []
  | [_] => none
  | hi :: lo :: rest => do
    let h ← hexValue? hi
    let l ← hexValue? lo
    return UInt8.ofNat (16 * h + l) :: (← ofHexDigits? rest)

def ofHex? (s : String) : Option Bytes := ofHexDigits? s.toList

/-! ## small laws -/

@[simp] theorem length_ofNat (width n : Nat) : (ofNat width n).length = width := by
  induction width generalizing n with
  | zero => rfl
  | succ w ih => simp [ofNat, ih]

/-- what was written in enough bytes reads back -/
theorem toNat_ofNat (width n : Nat) : toNat (ofNat width n) = n % Nat.pow 256 width := by
  induction width generalizing n with
  | zero => simp [ofNat, toNat, Nat.mod_one]
  | succ w ih =>
    have h : n % 256 ^ (w + 1) = n % 256 + 256 * (n / 256 % 256 ^ w) := by
      rw [Nat.pow_succ', Nat.mod_mul]
    simp [ofNat, toNat, ih, h]

end Bytes

end DistributedKey
