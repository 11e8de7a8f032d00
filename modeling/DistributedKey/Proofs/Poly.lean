/-
Evaluation of polynomials as a linear map: over a field `F`, for coefficients in any module over it.

- `eval_eq_sum`: Horner's rule computes the power sum.
- `eval_add`, `eval_sum`, `eval_map`: evaluation commutes with sums of polynomials and with linear maps of coefficients.
- `eval_commitWith`, `eval_pedersenCommit`: hence with committing. A commitment vector evaluated for a shareholder
  commits to that shareholder's pair of shares.
- `share_commutes`: all of this at the x-coordinate of an index, where shares are.
- `ext_getD`, `getD_pedersenCommit`: polynomials of one length are equal coefficient by coefficient, and so commitments
  are compared.
-/
import Mathlib.Tactic
import Mathlib.Algebra.Module.LinearMap.Basic
import Mathlib.Algebra.BigOperators.Fin
import DistributedKey.Poly

namespace DistributedKey.Poly

variable {F V W : Type} [Field F] [AddCommGroup V] [Module F V] [AddCommGroup W] [Module F W]

@[simp] theorem eval_nil (x : F) : (⟨[]⟩ : Poly V).eval x = 0 := rfl

@[simp] theorem eval_cons (c : V) (cs : List V) (x : F) : (⟨c :: cs⟩ : Poly V).eval x = x • (⟨cs⟩ : Poly V).eval x + c :=
  rfl

theorem eval_eq_sum (p : Poly V) (x : F) :
    p.eval x = ∑ j ∈ Finset.range p.length, x ^ j • p.coeffs.getD j 0 := by
  obtain ⟨cs⟩ := p
  induction cs with
  | nil => rfl
  | cons c cs ih =>
    simp only [length] at ih ⊢
    rw [eval_cons, ih, List.length_cons, Finset.sum_range_succ']
    simp only [List.getD_cons_succ, List.getD_cons_zero, pow_zero, one_smul, Finset.smul_sum, smul_smul, pow_succ']

/-- at zero, where the secret is, only the free coefficient counts -/
theorem eval_zero (p : Poly V) : p.eval (0 : F) = p.constant?.getD 0 := by
  obtain ⟨_ | ⟨c, cs⟩⟩ := p
  · rfl
  · simp [constant?]

/-! ## sums -/

theorem addCoeffs_nil (as : List V) : addCoeffs as [] = as := by
  cases as <;> rfl

theorem nil_addCoeffs (bs : List V) : addCoeffs [] bs = bs := by
  induction bs with
  | nil => rfl
  | cons b bs ih => simp [addCoeffs, ih]

theorem eval_add (p q : Poly V) (x : F) : (p + q).eval x = p.eval x + q.eval x := by
  obtain ⟨as⟩ := p
  obtain ⟨bs⟩ := q
  change (⟨addCoeffs as bs⟩ : Poly V).eval x = _
  induction as generalizing bs with
  | nil => rw [nil_addCoeffs, eval_nil, zero_add]
  | cons a as ih =>
    cases bs with
    | nil => rw [addCoeffs_nil, eval_nil, add_zero]
    | cons b bs =>
      rw [addCoeffs, eval_cons, ih, eval_cons, eval_cons, smul_add]
      abel

theorem length_add (p q : Poly V) : (p + q).length = max p.length q.length := by
  obtain ⟨as⟩ := p
  obtain ⟨bs⟩ := q
  change (addCoeffs as bs).length = max as.length bs.length
  induction as generalizing bs with
  | nil => simp [nil_addCoeffs]
  | cons a as ih =>
    cases bs with
    | nil => simp [addCoeffs_nil]
    | cons b bs => simp [addCoeffs, ih, Nat.add_max_add_right]

/-- the sum of polynomials -/
def sum (ps : List (Poly V)) : Poly V := ps.foldr (· + ·) ⟨[]⟩

theorem eval_sum (ps : List (Poly V)) (x : F) : (sum ps).eval x = (ps.map (·.eval x)).sum := by
  induction ps with
  | nil => rfl
  | cons p ps ih => rw [List.map_cons, List.sum_cons, ← ih, ← eval_add]; rfl

theorem length_sum_le {ps : List (Poly V)} {t : Nat} (h : ∀ p ∈ ps, p.length ≤ t) : (sum ps).length ≤ t := by
  induction ps with
  | nil => exact Nat.zero_le _
  | cons p ps ih =>
    change (p + sum ps).length ≤ t
    rw [length_add]
    exact max_le (h p List.mem_cons_self) (ih fun q hq => h q (List.mem_cons_of_mem _ hq))

/-! ## commitments -/

theorem eval_map (φ : V →ₗ[F] W) (p : Poly V) (x : F) : (⟨p.coeffs.map φ⟩ : Poly W).eval x = φ (p.eval x) := by
  obtain ⟨cs⟩ := p
  induction cs with
  | nil => exact (map_zero φ).symm
  | cons c cs ih =>
    rw [List.map_cons, eval_cons, ih, eval_cons, map_add, map_smul]

theorem eval_commitWith (p : Poly F) (base : V) (x : F) : (p.commitWith base).eval x = p.eval x • base :=
  eval_map (LinearMap.toSpanSingleton F V base) p x

@[simp] theorem length_commitWith (p : Poly F) (base : V) : (p.commitWith base).length = p.length :=
  List.length_map _

theorem eval_pedersenCommit [Suite F V] (a b : Poly F) (x : F) :
    (pedersenCommit a b : Poly V).eval x = pedersen (a.eval x) (b.eval x) := by
  rw [pedersenCommit, eval_add, eval_commitWith, eval_commitWith, pedersen]

theorem length_pedersenCommit [Suite F V] (a b : Poly F) :
    (pedersenCommit a b : Poly V).length = max a.length b.length := by
  rw [pedersenCommit, length_add, length_commitWith, length_commitWith]

/-- **Evaluation commutes with addition and commitment**, for polynomials of any lengths. The share for index `i` is the
power sum of the coefficients at `i + 1`. The share of a sum is the sum of the shares, of exponents and of group elements.
The share of the commitments is the commitment to the share, over any base element and for pairs. -/
theorem share_commutes [Suite F V] (p q : Poly F) (c d : Poly V) (base : V) (i : Index) :
    p.share F i = ⟨∑ j ∈ Finset.range p.length, p.coeffs.getD j 0 * ((i.toNat + 1 : Nat) : F) ^ j, i⟩ ∧
    (p.commitWith base).share F i = ⟨(p.share F i).value • base, i⟩ ∧
    (p + q).share F i = ⟨(p.share F i).value + (q.share F i).value, i⟩ ∧
    (c + d).share F i = ⟨(c.share F i).value + (d.share F i).value, i⟩ ∧
    (pedersenCommit p q : Poly V).share F i = ⟨pedersen (p.share F i).value (q.share F i).value, i⟩ := by
  have hsum : p.eval (xCoordinate i : F) =
      ∑ j ∈ Finset.range p.length, p.coeffs.getD j 0 * ((i.toNat + 1 : Nat) : F) ^ j := by
    rw [eval_eq_sum]
    exact Finset.sum_congr rfl fun j _ => mul_comm _ _
  refine ⟨?_, ?_, ?_, ?_, ?_⟩
  · rw [share, hsum]
  · rw [share, eval_commitWith]
    rfl
  · rw [share, eval_add]
    rfl
  · rw [share, eval_add]
    rfl
  · rw [share, eval_pedersenCommit]
    rfl

/-! ## coefficients -/

theorem getD_add (p q : Poly V) (j : Nat) :
    (p + q).coeffs.getD j 0 = p.coeffs.getD j 0 + q.coeffs.getD j 0 := by
  obtain ⟨as⟩ := p
  obtain ⟨bs⟩ := q
  change (addCoeffs as bs).getD j 0 = as.getD j 0 + bs.getD j 0
  induction as generalizing bs j with
  | nil => simp [nil_addCoeffs]
  | cons a as ih =>
    cases bs with
    | nil => simp [addCoeffs_nil]
    | cons b bs =>
      cases j with
      | zero => rfl
      | succ j => exact ih _ _

theorem getD_commitWith (p : Poly F) (base : V) (j : Nat) :
    (p.commitWith base).coeffs.getD j 0 = p.coeffs.getD j 0 • base := by
  rw [commitWith, List.getD_eq_getElem?_getD, List.getD_eq_getElem?_getD, List.getElem?_map]
  cases p.coeffs[j]? with
  | none => exact (zero_smul F base).symm
  | some c => rfl

theorem getD_pedersenCommit [Suite F V] (a b : Poly F) (j : Nat) :
    (pedersenCommit a b : Poly V).coeffs.getD j 0 = pedersen (a.coeffs.getD j 0) (b.coeffs.getD j 0) := by
  rw [pedersenCommit, getD_add, getD_commitWith, getD_commitWith, pedersen]

theorem ext_getD {p q : Poly V} (hlen : p.length = q.length) (h : ∀ j, p.coeffs.getD j 0 = q.coeffs.getD j 0) :
    p = q := by
  obtain ⟨as⟩ := p
  obtain ⟨bs⟩ := q
  refine congrArg Poly.mk (List.ext_getElem hlen fun j hj hj' => ?_)
  have hj'' := h j
  simp only [List.getD_eq_getElem?_getD, List.getElem?_eq_getElem hj, List.getElem?_eq_getElem hj',
    Option.getD_some] at hj''
  exact hj''

end DistributedKey.Poly
