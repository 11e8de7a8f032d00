/-
Residues modulo a prime, as exponents and as the group: the smallest arithmetic that is all a proof may ask for.

The modulus is any prime that fits eight bytes. `1` is the generator, every residue is a point, and the byte form is the
representative in eight bytes. `lawfulWire_residue`: it is read as it was written.
-/
import Mathlib.Data.ZMod.Basic
import Mathlib.Algebra.Field.ZMod
import DistributedKey.Proofs.Codec
import DistributedKey.Suite

namespace DistributedKey

variable {p : Nat}

instance : Suite (ZMod p) (ZMod p) where
  generator := 1
  blinding := 2
  onCurve _ := true
  inSubgroup _ := true
  ofDigest bs := (Bytes.toNat bs : ZMod p)

instance : Canonical (ZMod p) where
  toBytes x := Bytes.ofNat 8 x.val
  ofBytes bs :=
    if bs.length < 8 then .error .truncated
    else if Bytes.toNat (bs.take 8) < p then .ok (Bytes.toNat (bs.take 8) : ZMod p)
    else .error .notReduced

instance : Sampled (ZMod p) where
  draw rng := ((rng.nextWord.1.toNat : ZMod p), rng.nextWord.2)

/-- each draw takes one word -/
theorem getElem?_drawMany_residue {count i : Nat} (hi : i < count) (rng : Random) :
    ((drawMany count rng).1 : List (ZMod p))[i]? = some ((⟨rng.key, rng.taken + i⟩ : Random).nextWord.1.toNat : ZMod p) := by
  induction count generalizing rng i with
  | zero => exact absurd hi (Nat.not_lt_zero i)
  | succ count ih =>
    cases i with
    | zero => rfl
    | succ i =>
      have hlater := ih (Nat.lt_of_succ_lt_succ hi) rng.nextWord.2
      rw [show rng.nextWord.2 = ⟨rng.key, rng.taken + 1⟩ from rfl, Nat.add_assoc, Nat.add_comm 1] at hlater
      exact hlater

variable [NeZero p]

theorem ofBytes_toBytes_residue (hp : p ≤ 2 ^ 64) (x : ZMod p) :
    Canonical.ofBytes (Canonical.toBytes x) = (.ok x : Except EncodingError (ZMod p)) := by
  have hval : x.val < Nat.pow 256 8 := lt_of_lt_of_le x.val_lt (hp.trans (by norm_num))
  have hread : ∀ bs : Bytes, bs.length = 8 → Bytes.toNat bs = x.val →
      Canonical.ofBytes bs = (.ok x : Except EncodingError (ZMod p)) := by
    intro bs hlen hnat
    change (if bs.length < 8 then _ else _) = _
    rw [if_neg (by omega), List.take_of_length_le hlen.le, hnat, if_pos x.val_lt, ZMod.natCast_zmod_val]
  have hnat : Bytes.toNat (Bytes.ofNat 8 x.val) = x.val := by rw [Bytes.toNat_ofNat, Nat.mod_eq_of_lt hval]
  exact hread _ (Bytes.length_ofNat 8 _) hnat

/-- **Residues are read as they were written.** -/
theorem lawfulWire_residue (hp : p ≤ 2 ^ 64) : LawfulWire (ZMod p) where
  roundTrips x := by
    refine Wire.roundTrips_canonical (ofBytes_toBytes_residue hp x) ?_
    rw [show (Canonical.toBytes x).length = 8 from Bytes.length_ofNat 8 _]
    norm_num
  length_encode_lt x := by
    rw [Wire.length_encode_canonical, show (Canonical.toBytes x).length = 8 from Bytes.length_ofNat 8 _]
    norm_num

/-! ## modulus 11 -/

instance prime_eleven : Fact (Nat.Prime 11) := ⟨by norm_num⟩

instance : LawfulWire (ZMod 11) := lawfulWire_residue (by norm_num)

end DistributedKey
