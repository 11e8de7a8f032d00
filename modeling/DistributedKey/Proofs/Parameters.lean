/-
The check of the parameters over the whole range of the machine words.

The two guards and the checked difference agree with the bound over the integers; the doubling of `f` is what is not
guarded. It is reached by every `f < k` with `n ≥ 1`, also by those with `n < 2f` that the checked difference is there
for, and from 2⁶³ on it ends the computation where the bound has a verdict (`validate_exact`, `validate_overflow`).
-/
import Mathlib.Tactic
import DistributedKey.Config

namespace DistributedKey.Config

/-- The check accepts exactly the parameters within the bound, as integers. It refuses all others with the three numbers,
save for those whose `f` it cannot double. -/
theorem validate_exact (c : Config) :
    (c.validate = .ok () ↔
      1 ≤ c.n.toNat ∧ 1 ≤ c.k.toNat ∧ c.f.toNat < c.k.toNat ∧ c.k.toNat + 2 * c.f.toNat ≤ c.n.toNat) ∧
    (c.validate = .error .overflow ↔ 1 ≤ c.n.toNat ∧ c.f.toNat < c.k.toNat ∧ 2 ^ 63 ≤ c.f.toNat) ∧
    (c.validate = .ok () ∨ c.validate = .error .overflow ∨
      c.validate = .error (.invalidParameters c.n.toNat c.k.toNat c.f.toNat)) := by
  have hsize : UInt64.size = 2 * 2 ^ 63 := rfl
  refine ⟨?_, ?_, ?_⟩
  · rw [validate_eq_ok_iff]
    simp only [admissible, Bool.and_eq_true, decide_eq_true_eq]
    omega
  · rw [validate_eq]
    split_ifs with hover <;> simp [invalid] <;> omega
  · rw [validate_eq]
    split_ifs
    · exact .inr (.inl rfl)
    · exact .inl rfl
    · exact .inr (.inr rfl)

/-- no verdict on parameters that are out of bound: `k + 2f` is more than `n` -/
theorem validate_overflow :
    ∃ c : Config, c.n.toNat < c.k.toNat + 2 * c.f.toNat ∧
      c.validate ≠ .error (.invalidParameters c.n.toNat c.k.toNat c.f.toNat) ∧
      c.validate = .error .overflow ∧ Failure.overflow.fatal = true :=
  ⟨{ n := 0xFFFFFFFFFFFFFFFF, k := 0xFFFFFFFFFFFFFFFF, f := 0x8000000000000000 }, by decide, by decide, by decide, rfl⟩

end DistributedKey.Config
