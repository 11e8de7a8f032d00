/-
Data is hashed to a generator of the group, or to nothing.

- `Point.IsGenerator`: a point of the curve that generates all points that the group order annihilates.
  `isGenerator_iff`: the two checks decide it, for every point but the identity. `isGenerator_clearCofactor`: clearing the
  cofactor of any point on the curve gives one, unless it leaves the identity.
- `Point.HashesTo`: what one counter gives, said without the search for a root.
- `map_isGenerator`: the first counter that gives a point decides; without one the target stays.
- `isGenerator_blinding`: the second generator deserves the name.
-/
import DistributedKey.Curve.Hashing
import DistributedKey.Proofs.Curve.Order
import DistributedKey.Proofs.Curve.SquareRoot

namespace DistributedKey

/-! ## the search -/

section Search

variable {X G : Type} [Zero G] [DecidableEq G] {lift? : X → Option G} {clear : G → G}

theorem cleared?_eq_some_iff {x : X} {g : G} :
    cleared? lift? clear x = some g ↔ ∃ p, lift? x = some p ∧ clear p = g ∧ g ≠ 0 := by
  rw [cleared?, Option.bind_eq_some_iff]
  refine exists_congr fun p => and_congr_right fun _ => ?_
  split_ifs with hzero
  · exact ⟨False.elim, fun ⟨hg, hne⟩ => hne (hg ▸ hzero)⟩
  · exact ⟨fun h => ⟨Option.some.inj h, Option.some.inj h ▸ hzero⟩, fun ⟨hg, _⟩ => congrArg some hg⟩

theorem firstCleared_eq_none_iff {x : Nat → X} {attempts : Nat} :
    firstCleared lift? clear x attempts = none ↔ ∀ counter < attempts, cleared? lift? clear (x counter) = none := by
  simp only [firstCleared, List.findSome?_eq_none_iff, List.mem_range]

theorem firstCleared_succ (x : Nat → X) (attempts : Nat) : firstCleared lift? clear x (attempts + 1) =
    (firstCleared lift? clear x attempts).or (cleared? lift? clear (x attempts)) := by
  rw [firstCleared, List.range_succ, List.findSome?_append, firstCleared, List.findSome?_singleton]

/-- what is found is what the first counter gives that gives anything -/
theorem firstCleared_eq_some_iff {x : Nat → X} {attempts : Nat} {g : G} :
    firstCleared lift? clear x attempts = some g ↔ ∃ counter < attempts, cleared? lift? clear (x counter) = some g ∧
      ∀ earlier < counter, cleared? lift? clear (x earlier) = none := by
  induction attempts with
  | zero => simp [firstCleared]
  | succ attempts ih =>
    rw [firstCleared_succ, Option.or_eq_some_iff, ih, firstCleared_eq_none_iff]
    constructor
    · rintro (⟨counter, hlt, hfound⟩ | ⟨hnone, hfound⟩)
      · exact ⟨counter, by omega, hfound⟩
      · exact ⟨attempts, by omega, hfound, hnone⟩
    · rintro ⟨counter, hlt, hfound, hnone⟩
      rcases Nat.lt_succ_iff_lt_or_eq.1 hlt with hlt | rfl
      · exact .inl ⟨counter, hlt, hfound, hnone⟩
      · exact .inr ⟨hnone, hfound⟩

end Search

namespace Point

/-! ## generators -/

/-- a point of the curve whose multiples are all points that the group order annihilates -/
structure IsGenerator (p : Point) : Prop where
  onCurve : p.onCurve
  ne_identity : p ≠ .identity
  inSubgroup : p.inSubgroup
  generates : ∀ q : Point, q.onCurve → q.inSubgroup → ∃ k < groupOrder, multiple k p = q

theorem inSubgroup_ofCurve {P : CurvePoint} :
    (ofCurve P).inSubgroup ↔ groupOrder • P = 0 := by
  rw [inSubgroup, decide_eq_true_iff, multiple_ofCurve, ofCurve_eq_identity]

/-- **The checks of the library are enough.** -/
theorem isGenerator_iff {p : Point} : p.IsGenerator ↔ p.onCurve ∧ p ≠ .identity ∧ p.inSubgroup := by
  refine ⟨fun h => ⟨h.onCurve, h.ne_identity, h.inSubgroup⟩, fun ⟨hcurve, hne, hsubgroup⟩ => ⟨hcurve, hne, hsubgroup, ?_⟩⟩
  intro q hqcurve hqsubgroup
  obtain ⟨P, rfl⟩ := onCurve_iff.1 hcurve
  obtain ⟨Q, rfl⟩ := onCurve_iff.1 hqcurve
  obtain ⟨k, hk, rfl⟩ := exists_nsmul_eq (inSubgroup_ofCurve.1 hsubgroup) (mt ofCurve_eq_identity.2 hne)
    (inSubgroup_ofCurve.1 hqsubgroup)
  exact ⟨k, hk, multiple_ofCurve k P⟩

theorem isGenerator_generator : generator.IsGenerator :=
  isGenerator_iff.2 ⟨onCurve_inSubgroup_generator.1, Point.noConfusion, onCurve_inSubgroup_generator.2⟩

theorem isGenerator_clearCofactor {p : Point} (hcurve : p.onCurve) (hne : clearCofactor p ≠ .identity) :
    (clearCofactor p).IsGenerator := by
  obtain ⟨P, rfl⟩ := onCurve_iff.1 hcurve
  have hcleared : clearCofactor (ofCurve P) = ofCurve (cofactor • P) := multiple_ofCurve cofactor P
  refine isGenerator_iff.2 ⟨?_, hne, ?_⟩
  · rw [hcleared]
    exact onCurve_iff.2 ⟨_, rfl⟩
  · rw [hcleared, inSubgroup_ofCurve]
    exact nsmul_groupOrder_cofactor P

/-! ## hashing -/

/-- one counter gives the point: the multiple by the cofactor of the point with the smaller root over the abscissa that is
hashed, if that is not the identity -/
def HashesTo (data : Bytes) (counter : Nat) (p : Point) : Prop :=
  ∃ y, IsLeast {y | y * y = rightSide (abscissa data counter)} y ∧
    clearCofactor (.affine (abscissa data counter) y) = p ∧ p ≠ .identity

theorem cleared?_abscissa_eq_some_iff {data : Bytes} {counter : Nat} {p : Point} :
    cleared? (lift? · false) clearCofactor (abscissa data counter) = some p ↔ HashesTo data counter p := by
  rw [cleared?_eq_some_iff, HashesTo]
  constructor
  · rintro ⟨q, hlift, hclear, hne⟩
    obtain ⟨y, hleast, rfl⟩ := lift?_eq_some_iff.1 hlift
    exact ⟨y, hleast, hclear, hne⟩
  · rintro ⟨y, hleast, hclear, hne⟩
    exact ⟨_, lift?_eq_some_iff.2 ⟨y, hleast, rfl⟩, hclear, hne⟩

theorem cleared?_abscissa_eq_none_iff {data : Bytes} {counter : Nat} :
    cleared? (lift? · false) clearCofactor (abscissa data counter) = none ↔ ∀ p, ¬HashesTo data counter p := by
  rw [Option.eq_none_iff_forall_ne_some]
  exact forall_congr' fun p => not_congr cleared?_abscissa_eq_some_iff

theorem ofData?_eq_none_iff {data : Bytes} :
    ofData? data = none ↔ ∀ counter < attempts, ∀ p, ¬HashesTo data counter p := by
  rw [ofData?, firstCleared_eq_none_iff]
  simp only [cleared?_abscissa_eq_none_iff]

theorem ofData?_eq_some_iff {data : Bytes} {p : Point} : ofData? data = some p ↔
    ∃ counter < attempts, HashesTo data counter p ∧ ∀ earlier < counter, ∀ p', ¬HashesTo data earlier p' := by
  rw [ofData?, firstCleared_eq_some_iff]
  simp only [cleared?_abscissa_eq_some_iff, cleared?_abscissa_eq_none_iff]

theorem isGenerator_of_hashesTo {data : Bytes} {counter : Nat} {p : Point} (h : HashesTo data counter p) :
    p.IsGenerator := by
  obtain ⟨y, hleast, rfl, hne⟩ := h
  exact isGenerator_clearCofactor (decide_eq_true hleast.1) hne

-- unfolded in place, as the equations that `rw` would ask for are found by evaluating the search
theorem map_of_ofData?_eq_none {data : Bytes} (h : ofData? data = none) (target : Point) :
    map data target = (.error (.exhausted attempts), target) := by
  unfold map
  rw [h]

theorem map_of_ofData?_eq_some {data : Bytes} {p : Point} (h : ofData? data = some p) (target : Point) :
    map data target = (.ok (), p) := by
  unfold map
  rw [h]

/-- **Data is hashed to a generator or to nothing.** Either there is a first counter that gives a point: the target becomes
that point, which is a generator, wherever the target was. Or there is none: the target stays where it was, and the error
says how many counters were tried. -/
theorem map_isGenerator (data : Bytes) :
    (∃ counter < attempts, ∃ p, HashesTo data counter p ∧ (∀ earlier < counter, ∀ p', ¬HashesTo data earlier p') ∧
      p.IsGenerator ∧ ∀ target, map data target = (.ok (), p)) ∨
    ((∀ counter < attempts, ∀ p, ¬HashesTo data counter p) ∧
      ∀ target, map data target = (.error (.exhausted attempts), target)) := by
  cases hdata : ofData? data with
  | none => exact .inr ⟨ofData?_eq_none_iff.1 hdata, map_of_ofData?_eq_none hdata⟩
  | some p =>
    obtain ⟨counter, hlt, hp, hearlier⟩ := ofData?_eq_some_iff.1 hdata
    exact .inl ⟨counter, hlt, p, hp, hearlier, isGenerator_of_hashesTo hp, map_of_ofData?_eq_some hdata⟩

/-- **The second generator is a generator.** Its seed has a point, so it is not the identity that the search began with. -/
theorem isGenerator_blinding : blinding.IsGenerator := by
  have habscissa : abscissa (Bytes.ofText "nothing up my sleeve") 1 =
      48114741689104855155774628631864120698501271038571261692984532053985749055980 := by
    decide +kernel
  have hcleared : (cleared? (lift? · false) clearCofactor
      (48114741689104855155774628631864120698501271038571261692984532053985749055980 : Coordinate)).isSome := by
    decide +kernel
  rw [← habscissa] at hcleared
  obtain ⟨p, hp⟩ := Option.isSome_iff_exists.1 hcleared
  cases hdata : ofData? (Bytes.ofText "nothing up my sleeve") with
  | none => exact absurd (cleared?_abscissa_eq_some_iff.1 hp) (ofData?_eq_none_iff.1 hdata 1 (by decide) p)
  | some g =>
    obtain ⟨counter, -, hcounter, -⟩ := ofData?_eq_some_iff.1 hdata
    rw [blinding, map_of_ofData?_eq_some hdata]
    exact isGenerator_of_hashesTo hcounter

end Point

end DistributedKey
