/-
What an honest dealer broadcasts: its commitments, and a box for each shareholder.

- `find?_participant`: a group that `Group.create` made numbers its participants by position.
- `contribute_none`: who has dealt, or is silent, deals nothing more.
- `Upright`: a fresh honest shareholder whose commitments are proper points. Readers keep them (`Upright.check`), and they
  open at every index to what is dealt to it (`eval_commitments`).
- `contribute_some`, `fits_contribution`: what is dealt the first time, and that it can be written down.
- `openShare_sealShares`: everybody in the group opens its share of it.
-/
import DistributedKey.Proofs.Channel
import DistributedKey.Proofs.Poly
import DistributedKey.Proofs.Shareholder.Valid

namespace DistributedKey

variable {F G : Type}

/-! ## groups -/

theorem create_eq_ok {keys : List G} {config : Config} {g : Group G} (h : Group.create keys config = .ok g) :
    config.validate = .ok () ∧ keys.length = config.n.toNat ∧
      g = ⟨keys.mapIdx fun i key => ⟨UInt32.ofNat i, key⟩, config.k, config.f⟩ := by
  unfold Group.create at h
  rcases hconfig : config.validate with cause | u
  · rw [hconfig] at h
    cases h
  · rw [hconfig] at h
    simp only [bind, Except.bind] at h
    split_ifs at h with hcount
    exact ⟨rfl, not_not.1 hcount, (Except.ok.inj h).symm⟩

/-- a group is only made of parameters within bounds -/
theorem admissible_of_create {keys : List G} {config : Config} {g : Group G} (h : Group.create keys config = .ok g) :
    g.params.Admissible := by
  obtain ⟨hconfig, hcount, rfl⟩ := create_eq_ok h
  rw [Config.validate_eq_ok_iff] at hconfig
  simp only [Config.admissible, Bool.and_eq_true, decide_eq_true_eq] at hconfig
  obtain ⟨⟨-, hlt⟩, hle⟩ := hconfig
  exact ⟨hlt, by simpa [Group.params, Group.size, hcount] using hle⟩

/-- a group that is made passes the check that its shareholders make -/
theorem validate_of_create {keys : List G} {config : Config} {g : Group G} (h : Group.create keys config = .ok g) :
    g.config.validate = .ok () := by
  obtain ⟨hconfig, hkeys, rfl⟩ := create_eq_ok h
  rw [Config.validate_eq_ok_iff, Config.admissible] at hconfig ⊢
  rw [Group.config, Group.size, List.length_mapIdx, hkeys, UInt64.ofNat_toNat]
  exact hconfig

/-- whoever has a key is found under its index -/
theorem find?_participant {keys : List G} {config : Config} {g : Group G} (h : Group.create keys config = .ok g)
    {i : Index} {key : G} (hkey : g.key? i = some key) : g.participants.find? (·.id = i) = some ⟨i, key⟩ := by
  obtain ⟨P, hP, rfl⟩ := Option.map_eq_some_iff.1 hkey
  obtain ⟨-, -, rfl⟩ := create_eq_ok h
  dsimp only at hP ⊢
  obtain ⟨hlt, hget⟩ := List.getElem?_eq_some_iff.1 hP
  rw [List.getElem_mapIdx] at hget
  rw [List.find?_eq_some_iff_getElem]
  refine ⟨by simp, i.toNat, hlt, ?_, fun j hj => ?_⟩
  · rw [List.getElem_mapIdx, ← hget, UInt32.ofNat_toNat]
  · have hne : UInt32.ofNat j ≠ i := by
      rintro rfl
      exact absurd hj (not_lt.2 (Nat.mod_le _ _))
    simpa using hne

theorem length_participants_lt {keys : List G} {config : Config} {g : Group G} (h : Group.create keys config = .ok g) :
    g.participants.length < 2 ^ 64 := by
  obtain ⟨-, hcount, rfl⟩ := create_eq_ok h
  rw [List.length_mapIdx, hcount]
  exact config.n.toNat_lt

namespace Shareholder

/-! ## commitments -/

section

variable [Field F] [AddCommGroup G] [Module F G] [Suite F G] {s : Shareholder F G}

theorem commitments_of_honest (h : s.behavior = .honest) : s.commitments = Poly.pedersenCommit s.f1 s.f2 := by
  rw [commitments, if_neg]
  rw [h]
  exact Behavior.noConfusion

/-- commitments open at every index to what is dealt to it -/
theorem eval_commitments (h : s.behavior = .honest) (x : F) :
    s.commitments.eval x = (pedersen (s.f1.eval x) (s.f2.eval x) : G) := by
  rw [commitments_of_honest h, Poly.eval_pedersenCommit]

variable [DecidableEq G]

/-- a fresh honest shareholder whose commitments are proper points -/
structure Upright (s : Shareholder F G) : Prop where
  fresh : s.Fresh
  behavior : s.behavior = .honest
  proper : ∀ c ∈ s.commitments.coeffs, View.improper c = false

theorem Upright.length_commitments (h : s.Upright) : s.commitments.length = s.params.k := by
  rw [commitments_of_honest h.behavior, Poly.length_pedersenCommit, h.fresh.f1_length, h.fresh.f2_length, max_self]

/-- the commitments of an honest dealer are kept -/
theorem Upright.check (h : s.Upright) : View.checkCommitments s.params.k s.commitments = .ok () := by
  have hnone : s.commitments.coeffs.findIdx? View.improper = none := List.findIdx?_eq_none_iff.2 h.proper
  rw [View.checkCommitments, if_neg (not_not.2 h.length_commitments), hnone]

end

/-! ## the contribution -/

variable [Wire F]

theorem length_encode_pair [LawfulWire F] (pair : SharePair F) : (Wire.encode pair).length < 2 ^ 34 := by
  have hvalue := LawfulWire.length_encode_lt pair.value
  have hblinding := LawfulWire.length_encode_lt pair.blinding
  rw [Wire.length_encode_sharePair]
  omega

variable [Field F] [AddCommGroup G] [Module F G] [Suite F G] [Wire G] [Sampled F] {s : Shareholder F G}

/-- whoever is neither silent nor withholds its contribution deals, the first time -/
theorem contribute_some (hsilent : s.behavior ≠ .silent) (hwithhold : s.behavior ≠ .withholdContribution)
    (hcontributed : s.contributed = false) : s.contribute.1 =
      some (.contribution ⟨s.commitments, (sealShares s.f1 s.f2 s.group.participants s.rng).1⟩) := by
  simp [contribute, hcontributed, hsilent, hwithhold]

theorem contribute_honest (h : s.behavior = .honest) (hcontributed : s.contributed = false) : s.contribute.1 =
    some (.contribution ⟨s.commitments, (sealShares s.f1 s.f2 s.group.participants s.rng).1⟩) :=
  contribute_some (by rw [h]; decide) (by rw [h]; decide) hcontributed

/-- a box that was sealed for the group is opened by the shareholder it is addressed to -/
theorem openShare_sealShares [LawfulWire F] {keys : List G} {config : Config} {g : Group G}
    (hg : Group.create keys config = .ok g) (hkey : g.key? s.index = some (s.privateKey • (generator : G)))
    (f1 f2 : Poly F) (rng : Random) :
    s.openShare (sealShares f1 f2 g.participants rng).1 = .ok (pairFor f1 f2 s.index) := by
  obtain ⟨rng', hfind⟩ := sealShares_find? f1 f2 (find?_participant hg hkey) rng
  have hpair : Wire.RoundTrips (pairFor f1 f2 s.index) :=
    roundTrips_sharePair (LawfulWire.roundTrips _) (LawfulWire.roundTrips _)
  simp only [openShare, hfind, SealedBox.decrypt?_encrypt, hpair.read]

/-- boxes for as many shareholders as can be counted can be written down -/
theorem fits_contribution [LawfulWire F] {commitments : Poly G} (hcommitments : commitments.length < 2 ^ 64) (f1 f2 : Poly F)
    {participants : List (Participant G)} (hparticipants : participants.length < 2 ^ 64) (rng : Random) :
    (Payload.contribution ⟨commitments, (sealShares f1 f2 participants rng).1⟩ : Payload F G).Fits := by
  refine ⟨hcommitments, ?_, fun share hshare => ?_⟩
  · rw [length_sealShares]
    exact hparticipants
  · obtain ⟨P, -, hlen⟩ := length_body_of_mem_sealShares hshare
    have hpair := length_encode_pair (pairFor f1 f2 P.id)
    omega

end Shareholder

end DistributedKey
