/-
Parameters of a run: `n` shareholders, `k` shares to reconstruct, at most `f` of them faulty, and two waits.

The numbers are machine words. `validate` asks for at least one shareholder and `f < k ≤ n - 2f`. The double of `f` is
taken only once `f < k` is known, and where it is no word there is `overflow` instead of a verdict. A difference that is
no word is a verdict, and one against the parameters.
`validate_eq_ok_iff` says that it accepts exactly the parameters with `k + 2f ≤ n` over the integers.
-/
import DistributedKey.Failure

namespace DistributedKey

structure Config where
  n : UInt64
  k : UInt64
  f : UInt64
  /-- how long a worker waits for the log to grow before it looks whether it was stopped -/
  pollIntervalMs : UInt64 := 50
  /-- bound of a wait for a result -/
  waitTimeoutMs : UInt64 := 30000
deriving DecidableEq

namespace Config

/-- the bound on the parameters, over the integers -/
def admissible (c : Config) : Bool :=
  0 < c.n.toNat && c.f.toNat < c.k.toNat && c.k.toNat + 2 * c.f.toNat ≤ c.n.toNat

def invalid (c : Config) : Failure := .invalidParameters c.n.toNat c.k.toNat c.f.toNat

/-- twice a word; the computation ends where that is no word -/
def double (a : UInt64) : Except Failure UInt64 :=
  if UInt64.size ≤ 2 * a.toNat then .error .overflow else .ok (2 * a)

/-- the difference of two words, where it is one -/
def difference? (a b : UInt64) : Option UInt64 := if b ≤ a then some (a - b) else none

def validate (c : Config) : Except Failure Unit :=
  if c.n = 0 ∨ c.k = 0 ∨ c.k ≤ c.f then .error c.invalid
  else do
    match difference? c.n (← double c.f) with
    | some most => if c.k ≤ most then .ok () else .error c.invalid
    | none => .error c.invalid

theorem double_cases (a : UInt64) :
    (double a = .error .overflow ∧ UInt64.size ≤ 2 * a.toNat) ∨
    (double a = .ok (2 * a) ∧ (2 * a).toNat = 2 * a.toNat) := by
  unfold double
  split
  · exact .inl ⟨rfl, ‹_›⟩
  · refine .inr ⟨rfl, ?_⟩
    rw [UInt64.toNat_mul]
    exact Nat.mod_eq_of_lt (Nat.lt_of_not_le ‹_›)

theorem difference?_cases (a b : UInt64) :
    (difference? a b = none ∧ a.toNat < b.toNat) ∨
    (difference? a b = some (a - b) ∧ (a - b).toNat + b.toNat = a.toNat) := by
  unfold difference?
  split
  · refine .inr ⟨rfl, ?_⟩
    rw [UInt64.toNat_sub_of_le _ _ ‹_›]
    exact Nat.sub_add_cancel (UInt64.le_iff_toNat_le.1 ‹_›)
  · exact .inl ⟨rfl, Nat.lt_of_not_le (mt UInt64.le_iff_toNat_le.2 ‹_›)⟩

theorem refused_iff (c : Config) :
    (c.n = 0 ∨ c.k = 0 ∨ c.k ≤ c.f) ↔ ¬ (0 < c.n.toNat ∧ c.f.toNat < c.k.toNat) := by
  simp only [← UInt64.toNat_inj, UInt64.le_iff_toNat_le, UInt64.toNat_zero]
  omega

/-- the verdict, with every step of it over the integers -/
theorem validate_eq (c : Config) : c.validate =
    if 0 < c.n.toNat ∧ c.f.toNat < c.k.toNat ∧ UInt64.size ≤ 2 * c.f.toNat then .error .overflow
    else if c.admissible then .ok () else .error c.invalid := by
  have hn := c.n.toNat_lt_size
  simp only [validate, refused_iff, admissible, Bool.and_eq_true, decide_eq_true_eq, ite_not]
  by_cases hstart : 0 < c.n.toNat ∧ c.f.toNat < c.k.toNat
  · obtain ⟨hdouble, hover⟩ | ⟨hdouble, hval⟩ := double_cases c.f
    · rw [if_pos hstart, if_pos ⟨hstart.1, hstart.2, hover⟩, hdouble]
      rfl
    rw [if_pos hstart, hdouble, if_neg (by have := (2 * c.f).toNat_lt_size; omega)]
    obtain ⟨hdiff, hlt⟩ | ⟨hdiff, hmost⟩ := difference?_cases c.n (2 * c.f)
    · rw [if_neg (by omega)]
      simp [bind, Except.bind, hdiff]
    · have hle : c.k ≤ c.n - 2 * c.f ↔ c.k.toNat + 2 * c.f.toNat ≤ c.n.toNat := by
        rw [UInt64.le_iff_toNat_le]
        omega
      simp [bind, Except.bind, hdiff, hle, hstart]
  · rw [if_neg hstart, if_neg (by omega), if_neg (by omega)]

theorem validate_eq_ok_iff (c : Config) : c.validate = .ok () ↔ c.admissible := by
  have hn := c.n.toNat_lt_size
  rw [validate_eq]
  split
  · simp only [admissible, Bool.and_eq_true, decide_eq_true_eq, reduceCtorEq, false_iff]
    omega
  · split <;> simp [*]

instance : Wire Config := .via (fun c => (c.n, c.k, c.f, c.pollIntervalMs, c.waitTimeoutMs))
  fun (n, k, f, poll, wait) => ⟨n, k, f, poll, wait⟩

end Config

end DistributedKey
