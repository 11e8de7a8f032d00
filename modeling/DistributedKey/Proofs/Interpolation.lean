/-
Interpolation over a field, of values in any module over it.

- `interpolate_map`: a linear map can be applied to the shares or to the result.
- `interpolate_eq_ok`: at `t` indices or more, any values interpolate to a combination of `t` of them.
- `interpolate_eval`: values of a polynomial of at most `t` coefficients, at `t` indices or more, give its value anywhere.

So what shareholders recover can be compared in the exponent: interpolating commitments of their shares commits to what
their shares interpolate to.
-/
import Mathlib.LinearAlgebra.Lagrange
import DistributedKey.Message
import DistributedKey.Proofs.Index
import DistributedKey.Proofs.Poly

namespace DistributedKey

variable {F V W : Type} [Field F] [DecidableEq F] [AddCommGroup V] [Module F V] [AddCommGroup W] [Module F W]

/-! ## linearity -/

/-- a share with its value mapped -/
def Eval.map (φ : V → W) (e : Eval V) : Eval W := ⟨φ e.value, e.index⟩

omit [AddCommGroup V] [AddCommGroup W] in
theorem firstByIndex_map (φ : V → W) (shares : List (Eval V)) :
    firstByIndex (shares.map (Eval.map φ)) = (firstByIndex shares).map φ := by
  rw [firstByIndex, firstByIndex, ← IndexMap.ofList_map, ← List.map_reverse, List.map_map, List.map_map]
  rfl

omit [AddCommGroup V] [AddCommGroup W] in
theorem lowest_map (φ : V → W) (t : Nat) (shares : List (Eval V)) :
    lowest t (shares.map (Eval.map φ)) = (lowest t shares).map (List.map (Prod.map id φ)) := by
  have hsize : (firstByIndex (shares.map (Eval.map φ))).size = (firstByIndex shares).size := by
    rw [firstByIndex_map]
    exact List.length_map _
  have hentries : (firstByIndex (shares.map (Eval.map φ))).entries =
      (firstByIndex shares).entries.map (Prod.map id φ) := by
    rw [firstByIndex_map]
    rfl
  by_cases h : (firstByIndex shares).size < t
  · simp [lowest, hsize, h, Except.map]
  · simp [lowest, hsize, h, Except.map, hentries, List.map_take]

theorem combine_map (φ : V →ₗ[F] W) (x : F) (indices : List Index) (points : List (Index × V)) (acc : V) :
    combine x indices (points.map (Prod.map id φ)) (φ acc) = (combine x indices points acc).map φ := by
  induction points generalizing acc with
  | nil => rfl
  | cons e points ih =>
    obtain ⟨i, y⟩ := e
    simp only [List.map_cons, Prod.map_apply, id_eq, combine]
    cases lagrange? x indices i with
    | none => rfl
    | some l =>
      dsimp only
      rw [← map_smul, ← map_add, ih]

/-- **Interpolation commutes with linear maps of the values.** -/
theorem interpolate_map (φ : V →ₗ[F] W) (t : Nat) (shares : List (Eval V)) (x : F) :
    interpolate t (shares.map (Eval.map φ)) x = (interpolate t shares x).map φ := by
  unfold interpolate
  rw [lowest_map]
  cases lowest t shares with
  | error cause => rfl
  | ok points =>
    have hkeys : (points.map (Prod.map id φ)).map (·.1) = points.map (·.1) := by
      rw [List.map_map]
      rfl
    change combine x ((points.map (Prod.map id φ)).map (·.1)) (points.map (Prod.map id φ)) 0 = _
    rw [hkeys, ← map_zero φ, combine_map]
    rfl

/-! ## Lagrange coefficients -/

omit [DecidableEq F] in
theorem vanishing_eq_prod (x : F) (others : List Index) :
    vanishing x others = (others.map fun j => x - xCoordinate j).prod := by
  have hfold : ∀ acc : F, others.foldl (fun acc j => acc * (x - xCoordinate j)) acc =
      acc * (others.map fun j => x - xCoordinate j).prod := by
    induction others with
    | nil => simp
    | cons j others ih =>
      intro acc
      rw [List.foldl_cons, ih, List.map_cons, List.prod_cons, mul_assoc]
  rw [vanishing, hfold, one_mul]

variable {indices : List Index} {i : Index}

omit [DecidableEq F] in
theorem vanishing_filter (h : indices.Nodup) (x : F) :
    vanishing x (indices.filter (· ≠ i)) = ∏ j ∈ indices.toFinset.erase i, (x - xCoordinate j) := by
  have herase : indices.toFinset.erase i = (indices.filter (· ≠ i)).toFinset := by
    ext j
    simp [and_comm]
  rw [vanishing_eq_prod, herase, List.prod_toFinset _ (h.filter _)]

/-- the coefficient of an index is its Lagrange basis polynomial evaluated -/
theorem lagrange?_eq (h : indices.Nodup) (hinj : Set.InjOn (xCoordinate (F := F)) {j | j ∈ indices}) (hi : i ∈ indices)
    (x : F) : lagrange? x indices i = some ((Lagrange.basis indices.toFinset xCoordinate i).eval x) := by
  have hne : vanishing (xCoordinate i : F) (indices.filter (· ≠ i)) ≠ 0 := by
    rw [vanishing_filter h, Finset.prod_ne_zero_iff]
    intro j hj
    obtain ⟨hji, hj⟩ := Finset.mem_erase.1 hj
    exact sub_ne_zero.2 fun he => hji (hinj (List.mem_toFinset.1 hj) hi he.symm)
  have hbasis : (Lagrange.basis indices.toFinset (xCoordinate (F := F)) i).eval x =
      vanishing x (indices.filter (· ≠ i)) * (vanishing (xCoordinate i : F) (indices.filter (· ≠ i)))⁻¹ := by
    rw [vanishing_filter h, vanishing_filter h, ← Finset.prod_inv_distrib, ← Finset.prod_mul_distrib, Lagrange.basis,
      Polynomial.eval_prod]
    refine Finset.prod_congr rfl fun j _ => ?_
    simp [Lagrange.basisDivisor, mul_comm]
  rw [lagrange?, inverse?, if_neg hne, hbasis]
  rfl

theorem combine_eq (h : indices.Nodup) (hinj : Set.InjOn (xCoordinate (F := F)) {j | j ∈ indices}) (x : F)
    {points : List (Index × V)} (hpoints : ∀ e ∈ points, e.1 ∈ indices) (acc : V) :
    combine x indices points acc =
      .ok (acc + (points.map fun e => (Lagrange.basis indices.toFinset xCoordinate e.1).eval x • e.2).sum) := by
  induction points generalizing acc with
  | nil => simp [combine]
  | cons e points ih =>
    obtain ⟨i, y⟩ := e
    have hi : i ∈ indices := hpoints _ List.mem_cons_self
    simp only [combine, lagrange?_eq h hinj hi]
    rw [ih fun e he => hpoints e (List.mem_cons_of_mem _ he), List.map_cons, List.sum_cons, add_assoc]

/-! ## exactness -/

omit [DecidableEq F] in
/-- powers below the number of nodes are interpolated exactly -/
theorem sum_basis_mul_pow {s : Finset Index} (hinj : Set.InjOn (xCoordinate (F := F)) s) {j : Nat} (hj : j < s.card)
    (x : F) : ∑ i ∈ s, (Lagrange.basis s xCoordinate i).eval x * xCoordinate i ^ j = x ^ j := by
  have hdegree : (Polynomial.X ^ j : Polynomial F).degree < s.card := by
    rw [Polynomial.degree_X_pow]
    exact_mod_cast hj
  have hinterpolate := Lagrange.eq_interpolate_of_eval_eq (fun i => xCoordinate i ^ j) hinj hdegree
    fun i _ => by simp
  calc ∑ i ∈ s, (Lagrange.basis s xCoordinate i).eval x * xCoordinate i ^ j
      = (Lagrange.interpolate s xCoordinate fun i => xCoordinate i ^ j).eval x := by
        rw [Lagrange.interpolate_apply, Polynomial.eval_finsetSum]
        exact Finset.sum_congr rfl fun i _ => by simp [mul_comm]
    _ = x ^ j := by rw [← hinterpolate, Polynomial.eval_pow, Polynomial.eval_X]

omit [DecidableEq F] in
theorem sum_basis_smul_eval {s : Finset Index} (hinj : Set.InjOn (xCoordinate (F := F)) s) {p : Poly V}
    (hp : p.length ≤ s.card) (x : F) :
    ∑ i ∈ s, (Lagrange.basis s xCoordinate i).eval x • p.eval (xCoordinate i : F) = p.eval x := by
  simp only [Poly.eval_eq_sum, Finset.smul_sum, smul_smul]
  rw [Finset.sum_comm]
  refine Finset.sum_congr rfl fun j hj => ?_
  rw [← Finset.sum_smul, sum_basis_mul_pow hinj (lt_of_lt_of_le (Finset.mem_range.1 hj) hp)]

omit [Field F] [DecidableEq F] [Module F V] [AddCommGroup V] in
theorem mem_keys_firstByIndex {shares : List (Eval V)} : i ∈ (firstByIndex shares).keys ↔ i ∈ shares.map (·.index) := by
  rw [firstByIndex, IndexMap.mem_keys_ofList, List.map_map, List.map_reverse, List.mem_reverse]
  rfl

omit [Field F] [DecidableEq F] [Module F V] [AddCommGroup V] in
/-- each index counts once -/
theorem size_firstByIndex (shares : List (Eval V)) :
    (firstByIndex shares).size = (shares.map (·.index)).toFinset.card := by
  have hkeys : (firstByIndex shares).keys.toFinset = (shares.map (·.index)).toFinset := by
    ext i
    rw [List.mem_toFinset, List.mem_toFinset, mem_keys_firstByIndex]
  rw [← hkeys, List.toFinset_card_of_nodup (IndexMap.nodup_keys _), IndexMap.keys, List.length_map]
  rfl

omit [Field F] [DecidableEq F] [Module F V] [AddCommGroup V] in
/-- with enough indices there are `t` lowest ones, each with a value that was given for it -/
theorem lowest_eq_ok {t : Nat} {shares : List (Eval V)} (ht : t ≤ (shares.map (·.index)).toFinset.card) :
    ∃ points : List (Index × V), lowest t shares = .ok points ∧ points.length = t ∧ (points.map (·.1)).Nodup ∧
      ∀ e ∈ points, ∃ s ∈ shares, (s.index, s.value) = e := by
  have hsize : t ≤ (firstByIndex shares).size := size_firstByIndex shares ▸ ht
  refine ⟨(firstByIndex shares).entries.take t, if_neg (Nat.not_lt.2 hsize), ?_, ?_, fun e he => ?_⟩
  · rw [List.length_take]
    exact min_eq_left hsize
  · rw [List.map_take]
    exact (IndexMap.nodup_keys _).sublist (List.take_sublist _ _)
  · obtain ⟨s, hs, rfl⟩ := List.mem_map.1 (IndexMap.mem_of_mem_ofList (List.mem_of_mem_take he))
    exact ⟨s, List.mem_reverse.1 hs, rfl⟩

omit [DecidableEq F] [Module F V] [AddCommGroup V] in
theorem injOn_of_given {shares : List (Eval V)} {points : List (Index × V)}
    (hinj : Set.InjOn (xCoordinate (F := F)) {i | i ∈ shares.map (·.index)})
    (hgiven : ∀ e ∈ points, ∃ s ∈ shares, (s.index, s.value) = e) :
    Set.InjOn (xCoordinate (F := F)) {j | j ∈ points.map (·.1)} := by
  refine hinj.mono fun j hj => ?_
  obtain ⟨e, he, rfl⟩ := List.mem_map.1 hj
  obtain ⟨s, hs, rfl⟩ := hgiven e he
  exact List.mem_map.2 ⟨s, hs, rfl⟩

/-- **Interpolation is total** on enough indices: the values may be any, and are combined by the Lagrange basis. -/
theorem interpolate_eq_ok {t : Nat} {shares : List (Eval V)}
    (hinj : Set.InjOn (xCoordinate (F := F)) {i | i ∈ shares.map (·.index)})
    (ht : t ≤ (shares.map (·.index)).toFinset.card) (x : F) :
    ∃ points : List (Index × V), points.length = t ∧ (points.map (·.1)).Nodup ∧
      (∀ e ∈ points, ∃ s ∈ shares, (s.index, s.value) = e) ∧ interpolate t shares x =
        .ok (points.map fun e => (Lagrange.basis (points.map (·.1)).toFinset xCoordinate e.1).eval x • e.2).sum := by
  obtain ⟨points, hlowest, hlen, hnodup, hgiven⟩ := lowest_eq_ok ht
  refine ⟨points, hlen, hnodup, hgiven, ?_⟩
  change (lowest t shares).bind (fun points => combine x (points.map (·.1)) points 0) = _
  rw [hlowest]
  change combine x (points.map (·.1)) points 0 = _
  rw [combine_eq hnodup (injOn_of_given hinj hgiven) x fun e he => List.mem_map_of_mem he, zero_add]

/-- **Interpolation is exact** on the values of a polynomial of at most `t` coefficients. -/
theorem interpolate_eval {p : Poly V} {t : Nat} (hp : p.length ≤ t) {shares : List (Eval V)}
    (hshares : ∀ e ∈ shares, e.value = p.eval (xCoordinate e.index : F))
    (hinj : Set.InjOn (xCoordinate (F := F)) {i | i ∈ shares.map (·.index)})
    (ht : t ≤ (shares.map (·.index)).toFinset.card) (x : F) : interpolate t shares x = .ok (p.eval x) := by
  obtain ⟨points, hlen, hnodup, hgiven, hinterpolate⟩ := interpolate_eq_ok hinj ht x
  have hcard : (points.map (·.1)).toFinset.card = t := by
    rw [List.toFinset_card_of_nodup hnodup, List.length_map, hlen]
  have hinj' : Set.InjOn (xCoordinate (F := F)) (points.map (·.1)).toFinset := by
    simpa using injOn_of_given hinj hgiven
  rw [hinterpolate, ← sum_basis_smul_eval hinj' (hcard.symm ▸ hp) x, List.sum_toFinset _ hnodup, List.map_map]
  congr 2
  refine List.map_congr_left fun e he => ?_
  obtain ⟨s, hs, rfl⟩ := hgiven e he
  rw [hshares s hs]
  rfl

/-- **The free coefficient is recovered** from the values at enough indices. -/
theorem recover_eval {p : Poly V} {t : Nat} (hp : p.length ≤ t) {shares : List (Eval V)}
    (hshares : ∀ e ∈ shares, e.value = p.eval (xCoordinate e.index : F))
    (hinj : Set.InjOn (xCoordinate (F := F)) {i | i ∈ shares.map (·.index)})
    (ht : t ≤ (shares.map (·.index)).toFinset.card) : recover F t shares = .ok (p.constant?.getD 0) := by
  rw [recover, interpolate_eval hp hshares hinj ht, Poly.eval_zero]

/-! ## shares -/

/-- a pair of shares as an evaluation of the two polynomials at once -/
def SharePair.eval (e : SharePair F) : Eval (F × F) := ⟨(e.value, e.blinding), e.index⟩

/-- the first of the two evaluations, from which the secret is recovered -/
def SharePair.valueEval (e : SharePair F) : Eval F := ⟨e.value, e.index⟩

/-- the second of the two evaluations -/
def SharePair.blindingEval (e : SharePair F) : Eval F := ⟨e.blinding, e.index⟩

/-! ## x-coordinates -/

omit [DecidableEq F] in
/-- below the characteristic no two indices share an x-coordinate -/
theorem injOn_xCoordinate (r : Nat) [CharP F r] {n : Nat} (hn : n ≤ r) :
    Set.InjOn (xCoordinate (F := F)) {i : Index | i.toNat < n} := by
  intro i hi j hj hij
  have hi' : i.toNat < n := hi
  have hj' : j.toNat < n := hj
  have hmod : i.toNat + 1 ≡ j.toNat + 1 [MOD r] := (CharP.cast_eq_iff_mod_eq F r).1 hij
  have hmod' : i.toNat % r = j.toNat % r := Nat.ModEq.add_right_cancel' 1 hmod
  rw [Nat.mod_eq_of_lt (by omega), Nat.mod_eq_of_lt (by omega)] at hmod'
  exact UInt32.toNat_inj.1 hmod'

end DistributedKey
