/-
Interpolation of shares as they come: in any order, with repetitions, too few of them, or on no polynomial.

- `lowest_eq`: the points that are interpolated depend on two things only, the indices that are given and the value that is
  given first for each.
- `interpolate_any_shares`: so does the outcome, which is a value unless there are too few indices; and the values can be
  committed to before or after.
- `interpolate_shares`: shares of a polynomial, any of them any number of times, give the power sum of its coefficients.
-/
import DistributedKey.Proofs.Curve.Field
import DistributedKey.Proofs.Interpolation

namespace DistributedKey

variable {F V : Type}

/-! ## what is given for an index -/

section

variable {shares shares' before after : List (Eval V)} {e e' : Eval V} {i : Index} {t : Nat}

/-- the indices that values are given for -/
def givenIndices (shares : List (Eval V)) : IndexSet := .ofList (shares.map (·.index))

/-- the value that is given first for an index -/
def firstValue? (shares : List (Eval V)) (i : Index) : Option V := (shares.find? (·.index = i)).map (·.value)

theorem mem_givenIndices : i ∈ givenIndices shares ↔ i ∈ shares.map (·.index) := IndexSet.mem_ofList

theorem firstValue?_cons : firstValue? (e :: shares) i = if e.index = i then some e.value else firstValue? shares i := by
  rw [firstValue?, firstValue?, List.find?_cons]
  split_ifs with h <;> simp [h]

theorem firstValue?_append : firstValue? (before ++ after) i = (firstValue? before i).or (firstValue? after i) := by
  rw [firstValue?, List.find?_append, Option.map_or]
  rfl

theorem firstValue?_isSome : (firstValue? shares i).isSome ↔ i ∈ shares.map (·.index) := by
  rw [firstValue?, Option.isSome_map, List.find?_isSome, List.mem_map]
  simp

theorem givenIndices_congr (h : ∀ i, firstValue? shares' i = firstValue? shares i) :
    givenIndices shares' = givenIndices shares :=
  IndexSet.ext_elems fun i => by rw [mem_givenIndices, mem_givenIndices, ← firstValue?_isSome, ← firstValue?_isSome, h]

/-- neighbours of distinct indices can change places -/
theorem firstValue?_swap (h : e.index ≠ e'.index) : firstValue? (e' :: e :: shares) i = firstValue? (e :: e' :: shares) i := by
  simp only [firstValue?_cons]
  split_ifs with h' h''
  · exact absurd (h''.trans h'.symm) h
  all_goals rfl

theorem firstValue?_perm (h : shares'.Perm shares) (hdistinct : (shares.map (·.index)).Nodup) :
    firstValue? shares' i = firstValue? shares i := by
  induction h with
  | nil => rfl
  | cons e _ ih => rw [firstValue?_cons, firstValue?_cons, ih (List.nodup_cons.1 hdistinct).2]
  | swap e e' shares =>
    exact firstValue?_swap fun heq => (List.nodup_cons.1 hdistinct).1 (List.mem_cons.2 (Or.inl heq))
  | trans _ h ih ih' => exact (ih ((h.map _).nodup_iff.2 hdistinct)).trans (ih' hdistinct)

/-- a value that comes second for its index is not looked at -/
theorem firstValue?_insert (h : e.index ∈ before.map (·.index)) :
    firstValue? (before ++ e :: after) i = firstValue? (before ++ after) i := by
  rw [firstValue?_append, firstValue?_append, firstValue?_cons]
  split_ifs with hi
  · obtain ⟨y, hy⟩ := Option.isSome_iff_exists.1 (firstValue?_isSome.2 h)
    rw [← hi, hy]
    rfl
  · rfl

/-! ## the points that are interpolated -/

theorem keys_firstByIndex (shares : List (Eval V)) : (firstByIndex shares).keys = (givenIndices shares).elems :=
  IndexSet.eq_of_mem_iff (List.pairwise_map.2 (firstByIndex shares).sorted) (givenIndices shares).sorted fun _ =>
    mem_keys_firstByIndex.trans mem_givenIndices.symm

theorem size_givenIndices (shares : List (Eval V)) :
    (givenIndices shares).size = (shares.map (·.index)).toFinset.card := by
  rw [← size_firstByIndex, IndexSet.size, ← keys_firstByIndex, IndexMap.keys, List.length_map]
  rfl

theorem find?_firstByIndex (shares : List (Eval V)) : (firstByIndex shares).find? i = firstValue? shares i := by
  rw [firstByIndex, IndexMap.find?_ofList, ← List.map_reverse, List.reverse_reverse, List.find?_map, Option.map_map]
  rfl

/-- **The points that are interpolated** are the first values of the `t` lowest indices. -/
theorem lowest_eq (t : Nat) (shares : List (Eval V)) :
    lowest t shares = if (givenIndices shares).size < t then .error (.tooFew (givenIndices shares).size t)
      else .ok (((givenIndices shares).least t).elems.filterMap fun i => (firstValue? shares i).map fun y => (i, y)) := by
  have hsize : (firstByIndex shares).size = (givenIndices shares).size := by
    rw [size_firstByIndex, size_givenIndices]
  have hleast : ((firstByIndex shares).entries.take t).map (·.1) = ((givenIndices shares).least t).elems := by
    rw [List.map_take]
    exact congrArg (List.take t) (keys_firstByIndex shares)
  have hpoints : (firstByIndex shares).entries.take t =
      ((givenIndices shares).least t).elems.filterMap fun i => (firstValue? shares i).map fun y => (i, y) := by
    rw [← hleast]
    simp only [← find?_firstByIndex]
    exact (IndexMap.filterMap_find? fun e he => List.mem_of_mem_take he).symm
  rw [lowest, hsize, hpoints]

/-- so they are the same if these indices and values are -/
theorem lowest_congr (hindices : (givenIndices shares').least t = (givenIndices shares).least t)
    (hvalues : ∀ i ∈ (givenIndices shares).least t, firstValue? shares' i = firstValue? shares i)
    (ht : t ≤ (givenIndices shares).size) : lowest t shares' = lowest t shares := by
  have hsize : t ≤ (givenIndices shares').size := by
    have hleast := IndexSet.size_least ht
    rw [← hindices, IndexSet.size, IndexSet.least, List.length_take] at hleast
    exact min_eq_left_iff.1 hleast
  rw [lowest_eq, lowest_eq, if_neg (Nat.not_lt.2 hsize), if_neg (Nat.not_lt.2 ht), hindices]
  exact congrArg Except.ok (List.filterMap_congr fun i hi => by rw [hvalues i hi])

end

/-! ## the outcome -/

variable [Field F] [DecidableEq F] [AddCommGroup V] [Module F V] {shares shares' : List (Eval V)} {t : Nat} {x : F}

theorem interpolate_eq_of_least (hindices : (givenIndices shares').least t = (givenIndices shares).least t)
    (hvalues : ∀ i ∈ (givenIndices shares).least t, firstValue? shares' i = firstValue? shares i)
    (ht : t ≤ (givenIndices shares).size) : interpolate t shares' x = interpolate t shares x := by
  rw [interpolate, interpolate, lowest_congr hindices hvalues ht]

/-- what is not given first for its index is not looked at -/
theorem interpolate_eq_of_firstValue? (h : ∀ i, firstValue? shares' i = firstValue? shares i) :
    interpolate t shares' x = interpolate t shares x := by
  have hlowest : lowest t shares' = lowest t shares := by
    rw [lowest_eq, lowest_eq, givenIndices_congr h]
    simp only [h]
  rw [interpolate, interpolate, hlowest]

/-- where no two indices share an x-coordinate, the only failure is that there are too few of them -/
theorem interpolate_eq_error_iff (hinj : Set.InjOn (xCoordinate (F := F)) {i | i ∈ shares.map (·.index)})
    {cause : PolyError} : interpolate t shares x = .error cause ↔
      (shares.map (·.index)).toFinset.card < t ∧ cause = .tooFew (shares.map (·.index)).toFinset.card t := by
  rw [← size_givenIndices]
  rcases Nat.lt_or_ge (givenIndices shares).size t with hlt | hge
  · have herror : interpolate t shares x = .error (.tooFew (givenIndices shares).size t) := by
      rw [interpolate, lowest_eq, if_pos hlt]
      rfl
    rw [herror]
    exact ⟨fun h => ⟨hlt, (Except.error.inj h).symm⟩, fun h => by rw [h.2]⟩
  · obtain ⟨points, -, -, -, hok⟩ := interpolate_eq_ok hinj (size_givenIndices shares ▸ hge) x
    rw [hok]
    exact ⟨fun h => absurd h (by simp), fun h => absurd h.1 (Nat.not_lt.2 hge)⟩

omit [DecidableEq F] in
/-- indices are words, so in a field of this characteristic no two of them share an x-coordinate -/
theorem injOn_words (r : Nat) [CharP F r] (hr : UInt32.size ≤ r) (s : Set Index) : Set.InjOn (xCoordinate (F := F)) s :=
  (injOn_xCoordinate r hr).mono fun i _ => i.toNat_lt

/-- **Interpolation of any shares is total, and blind to their order.** The values may be any, of exponents or of group
elements. It fails exactly if fewer than `t` distinct indices are given, with their number. Otherwise the result depends
only on the values that are given first for the `t` lowest indices; so nothing changes where shares of distinct indices
change places, or where a share is added for an index that stands before it. To commit to the values and to interpolate
can be done in either order. -/
theorem interpolate_any_shares (r : Nat) [CharP F r] (hr : UInt32.size ≤ r) (t : Nat) (shares : List (Eval V)) (x : F) :
    (∀ cause, interpolate t shares x = .error cause ↔
      (shares.map (·.index)).toFinset.card < t ∧ cause = .tooFew (shares.map (·.index)).toFinset.card t) ∧
    (t ≤ (shares.map (·.index)).toFinset.card → ∃ y, interpolate t shares x = .ok y ∧
      ∀ shares', (givenIndices shares').least t = (givenIndices shares).least t →
        (∀ i ∈ (givenIndices shares).least t, firstValue? shares' i = firstValue? shares i) →
          interpolate t shares' x = .ok y) ∧
    (∀ shares', shares'.Perm shares → (shares.map (·.index)).Nodup →
      interpolate t shares' x = interpolate t shares x) ∧
    (∀ before e e' after, shares = before ++ e :: e' :: after → e.index ≠ e'.index →
      interpolate t (before ++ e' :: e :: after) x = interpolate t shares x) ∧
    (∀ before e after, shares = before ++ after → e.index ∈ before.map (·.index) →
      interpolate t (before ++ e :: after) x = interpolate t shares x) ∧
    ∀ (exponents : List (Eval F)) (base : V),
      interpolate t (exponents.map (Eval.map (· • base))) x = (interpolate t exponents x).map (· • base) := by
  have hinj := injOn_words (F := F) r hr {i | i ∈ shares.map (·.index)}
  refine ⟨fun cause => interpolate_eq_error_iff hinj, fun ht => ?_, fun shares' hperm hdistinct => ?_, ?_, ?_, ?_⟩
  · obtain ⟨points, -, -, -, hok⟩ := interpolate_eq_ok hinj ht x
    refine ⟨_, hok, fun shares' hindices hvalues => ?_⟩
    rw [← hok]
    exact interpolate_eq_of_least hindices hvalues (size_givenIndices shares ▸ ht)
  · exact interpolate_eq_of_firstValue? fun i => firstValue?_perm hperm hdistinct
  · rintro before e e' after rfl hne
    refine interpolate_eq_of_firstValue? fun i => ?_
    rw [firstValue?_append, firstValue?_append, firstValue?_swap hne]
  · rintro before e after rfl hmem
    exact interpolate_eq_of_firstValue? fun i => firstValue?_insert hmem
  · exact fun exponents base => interpolate_map (LinearMap.toSpanSingleton F V base) t exponents x

/-- four shares of exponents on no line, two of them for index 2: too few for four coefficients, and for two the same as the
first values of indices 0 and 2 -/
theorem interpolate_any_shares_repeated :
    let shares : List (Eval Scalar) := [⟨5, 2⟩, ⟨7, 0⟩, ⟨9, 2⟩, ⟨1, 4⟩]
    interpolate 4 shares (0 : Scalar) = .error (.tooFew 3 4) ∧ interpolate 2 shares (0 : Scalar) = .ok 8 ∧
      interpolate 2 [⟨7, 0⟩, ⟨5, 2⟩] (0 : Scalar) = (.ok 8 : Except PolyError Scalar) := by
  intro shares
  have hok : interpolate 2 shares (0 : Scalar) = .ok 8 := by decide +kernel
  have hcard : (shares.map (·.index)).toFinset.card = 3 := by decide +kernel
  have hindices : (givenIndices [(⟨7, 0⟩ : Eval Scalar), ⟨5, 2⟩]).least 2 = (givenIndices shares).least 2 := by
    decide +kernel
  have hleast : ((givenIndices shares).least 2).elems = [0, 2] := by decide +kernel
  have hvalues : ∀ i ∈ ((givenIndices shares).least 2).elems,
      firstValue? [⟨7, 0⟩, ⟨5, 2⟩] i = firstValue? shares i := by
    rw [hleast, List.forall_mem_cons, List.forall_mem_singleton]
    exact ⟨rfl, rfl⟩
  let _ := Scalar.field
  have := Scalar.charP
  have hany := fun t => interpolate_any_shares groupOrder Scalar.words_le_groupOrder t shares (0 : Scalar)
  obtain ⟨y, hy, hfirst⟩ := (hany 2).2.1 (by rw [hcard]; decide)
  obtain rfl : y = 8 := Except.ok.inj (hy.symm.trans hok)
  exact ⟨((hany 4).1 _).2 ⟨by rw [hcard]; decide, by rw [hcard]⟩, hok, hfirst _ hindices hvalues⟩

/-- **Interpolation recovers a polynomial everywhere.** Over exponents or over group elements, for a polynomial of at most
`t` coefficients: from its shares for any list of indices, in any order and with repetitions, at least `t` of them distinct,
the value at any `x` is the power sum of the coefficients, and what is recovered is the free one. -/
theorem interpolate_shares (r : Nat) [CharP F r] (hr : UInt32.size ≤ r) {p : Poly V} {t : Nat} (hp : p.length ≤ t)
    {indices : List Index} (ht : t ≤ indices.toFinset.card) :
    (∀ x : F, interpolate t (indices.map (p.share F)) x =
      .ok (∑ j ∈ Finset.range p.length, x ^ j • p.coeffs.getD j 0)) ∧
    ∀ c, p.constant? = some c → recover F t (indices.map (p.share F)) = .ok c := by
  have hvalues : ∀ e ∈ indices.map (p.share F), e.value = p.eval (xCoordinate e.index : F) := by
    intro e he
    obtain ⟨i, -, rfl⟩ := List.mem_map.1 he
    rfl
  have hindices : (indices.map (p.share F)).map (·.index) = indices := by
    rw [List.map_map]
    exact List.map_id _
  have hinj := injOn_words (F := F) r hr {i | i ∈ (indices.map (p.share F)).map (·.index)}
  have ht' : t ≤ ((indices.map (p.share F)).map (·.index)).toFinset.card := by rwa [hindices]
  refine ⟨fun x => ?_, fun c hc => ?_⟩
  · rw [interpolate_eval hp hvalues hinj ht' x, Poly.eval_eq_sum]
  · rw [recover_eval hp hvalues hinj ht', hc]
    rfl

/-- the exponents of the curve: `5 + 7 x` from three shares for two indices, at zero and at a given share -/
theorem interpolate_shares_line :
    let shares := [3, 0, 3].map (Poly.share Scalar (⟨[5, 7]⟩ : Poly Scalar))
    interpolate 2 shares (0 : Scalar) = .ok 5 ∧ interpolate 2 shares (4 : Scalar) = .ok 33 ∧
      recover Scalar 2 shares = .ok 5 := by
  intro shares
  let _ := Scalar.field
  have := Scalar.charP
  have hlength : (⟨[5, 7]⟩ : Poly Scalar).length ≤ 2 := by decide
  have hdistinct : 2 ≤ ([3, 0, 3] : List Index).toFinset.card := by decide +kernel
  obtain ⟨hvalue, hconstant⟩ :=
    interpolate_shares (F := Scalar) groupOrder Scalar.words_le_groupOrder hlength hdistinct
  exact ⟨hvalue 0, hvalue 4, hconstant 5 rfl⟩

end DistributedKey
