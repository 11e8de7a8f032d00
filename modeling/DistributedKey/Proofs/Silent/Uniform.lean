/-
For all admissible parameters, over every suite, there is a cast that is staffed: nothing that is asked of one excludes another.

In the uniform cast all keys are `1`, all dealers deal the polynomial whose coefficients are `1`, blinded with zero, and the
shareholders of lowest index are the silent ones. `staffed_uniform`: it is staffed if no more of them are than is tolerated;
`ready_uniform`: it is ready if enough are left. `five_at_rest`: five shareholders that have come to rest.
-/
import DistributedKey.Proofs.Residue
import DistributedKey.Proofs.Silent.Rest

namespace DistributedKey.Cast

variable {F G : Type}

section

variable [Suite F G] {config : Config}

/-- `n` participants with private key `1` -/
def uniformGroup (G : Type) [Suite F G] (config : Config) : Group G :=
  ⟨(List.replicate config.n.toNat (generator : G)).mapIdx fun i key => ⟨UInt32.ofNat i, key⟩, config.k, config.f⟩

theorem size_uniformGroup : (uniformGroup G config).size = config.n.toNat := by
  simp [uniformGroup, Group.size]

theorem validate_uniformGroup (hconfig : config.validate = .ok ()) :
    (uniformGroup G config).config.validate = .ok () := by
  have hn : UInt64.ofNat (uniformGroup G config).size = config.n := by rw [size_uniformGroup, UInt64.ofNat_toNat]
  rw [Config.validate_eq_ok_iff, Config.admissible] at hconfig ⊢
  rw [Group.config, hn]
  exact hconfig

theorem create_uniformGroup (hconfig : config.validate = .ok ()) :
    Group.create (List.replicate config.n.toNat (generator : G)) config = .ok (uniformGroup G config) := by
  simp only [Group.create, hconfig, bind, Except.bind, List.length_replicate, ne_eq, not_true_eq_false, ↓reduceIte]
  rfl

end

variable [Field F] [Suite F G]

/-- everybody deals the same, the lowest `quiet` shareholders are silent -/
def uniform (G : Type) [Suite F G] (config : Config) (quiet : Nat) : Cast F G where
  group := uniformGroup G config
  start i := .started i 1 (uniformGroup G config) (if i.toNat < quiet then .silent else .honest) (.ofSeed [])
    ⟨List.replicate config.k.toNat 1⟩ ⟨List.replicate config.k.toNat 0⟩

variable {config : Config} {quiet : Nat} {i : Index}

theorem params_uniform : (uniform G config quiet).params = ⟨config.n.toNat, config.k.toNat, config.f.toNat⟩ := by
  change (⟨(uniformGroup G config).size, _, _⟩ : Params) = _
  rw [size_uniformGroup]
  rfl

theorem behavior_uniform :
    ((uniform G config quiet).start i).behavior = if i.toNat < quiet then .silent else .honest := rfl

theorem length_silent_uniform (hn : config.n.toNat ≤ UInt32.size) : (uniform G config quiet).silent.length ≤ quiet := by
  have hnodup : (uniform G config quiet).silent.Nodup :=
    (Params.nodup_dealers (by rwa [params_uniform])).filter _
  have hsub : ((uniform G config quiet).silent.map UInt32.toNat).toFinset ⊆ Finset.range quiet := by
    intro j hj
    obtain ⟨i, hi, rfl⟩ := List.mem_map.1 (List.mem_toFinset.1 hj)
    have hsilent := of_decide_eq_true (List.mem_filter.1 hi).2
    rw [behavior_uniform] at hsilent
    split_ifs at hsilent with hlt
    exact Finset.mem_range.2 hlt
  have hcard := Finset.card_le_card hsub
  rwa [IndexSet.card_indices hnodup, Finset.card_range] at hcard

variable [AddCommGroup G] [Module F G]

theorem key_uniformGroup (hi : i.toNat < config.n.toNat) :
    (uniformGroup G config).key? i = some ((1 : F) • (generator : G)) := by
  simp [Group.key?, uniformGroup, hi]

/-- the commitments of the uniform dealers are the generator over and over -/
theorem coeffs_uniform (hi : ((uniform G config quiet).start i).behavior = .honest) :
    ((uniform G config quiet).start i).commitments.coeffs = List.replicate config.k.toNat (generator : G) := by
  have hadd : ∀ (k : Nat) (a b : G), Poly.addCoeffs (List.replicate k a) (List.replicate k b) =
      List.replicate k (a + b) := by
    intro k a b
    induction k with
    | zero => rfl
    | succ k ih => rw [List.replicate_succ, List.replicate_succ, Poly.addCoeffs, ih, ← List.replicate_succ]
  rw [Shareholder.commitments, if_neg (by rw [hi]; decide)]
  change Poly.addCoeffs ((List.replicate config.k.toNat (1 : F)).map (· • (generator : G)))
    ((List.replicate config.k.toNat (0 : F)).map (· • (blinding : G))) = _
  rw [List.map_replicate, List.map_replicate, hadd, one_smul, zero_smul, add_zero]

/-- **There is a staffed cast for all admissible parameters** and any number of silent shareholders that is tolerated. -/
theorem staffed_uniform [DecidableEq G] (hg : (generator : G) ≠ 0)
    (hpoints : ∀ c : G, Suite.onCurve c = true ∧ Suite.inSubgroup c = true) (hconfig : config.validate = .ok ())
    (hn : config.n.toNat ≤ UInt32.size) (hfaults : quiet ≤ config.f.toNat) : (uniform G config quiet).Staffed := by
  have hlt : ∀ i : Index, i.toNat < (uniform G config quiet).params.n → i.toNat < config.n.toNat := by
    intro i hi
    rwa [params_uniform] at hi
  constructor
  · exact ⟨_, config, create_uniformGroup hconfig⟩
  · exact Params.nodup_dealers (by rwa [params_uniform])
  · intro i hi
    exact Shareholder.fresh_started (validate_uniformGroup hconfig) (key_uniformGroup (hlt i hi))
      (List.length_replicate ..) (List.length_replicate ..)
  · exact fun i _ => rfl
  · exact fun i _ => rfl
  · intro i _
    rw [behavior_uniform]
    split_ifs
    · exact Or.inr rfl
    · exact Or.inl rfl
  · rw [params_uniform]
    exact (length_silent_uniform hn).trans hfaults
  · intro d hd c hc
    rw [coeffs_uniform (mem_honest.1 hd).2] at hc
    rw [List.eq_of_mem_replicate hc]
    exact hg
  · exact hpoints

/-- it is ready if enough of its shareholders are left -/
theorem ready_uniform [DecidableEq G] (hg : (generator : G) ≠ 0)
    (hpoints : ∀ c : G, Suite.onCurve c = true ∧ Suite.inSubgroup c = true) (hconfig : config.validate = .ok ())
    (hn : config.n.toNat < UInt32.size) (hfaults : quiet ≤ config.f.toNat)
    (henough : config.k.toNat + config.f.toNat < config.n.toNat - quiet) : (uniform G config quiet).Ready := by
  have hsilent : (uniform G config quiet).silent.length ≤ quiet := length_silent_uniform hn.le
  refine { staffed_uniform hg hpoints hconfig hn.le hfaults with lt_words := ?_, enough := ?_ }
  · rwa [params_uniform]
  · rw [params_uniform]
    dsimp only
    omega

/-- five shareholders, two shares to reconstruct, one fault tolerated, and shareholder 0 silent, over residues modulo 11 -/
def five : Cast (ZMod 11) (ZMod 11) := uniform (ZMod 11) { n := 5, k := 2, f := 1 } 1

theorem params_five : five.params = ⟨5, 2, 1⟩ := params_uniform

/-- so no two of their x coordinates are the same -/
theorem n_five_le : five.params.n ≤ 11 := by
  rw [params_five]
  decide

theorem ready_five : five.Ready :=
  ready_uniform one_ne_zero (fun _ => ⟨rfl, rfl⟩) rfl (by decide) (by decide) (by decide)

theorem one_lt_five : (1 : Index).toNat < five.params.n := by
  rw [params_five]
  decide

theorem fresh_five : (five.start 1).Fresh := ready_five.fresh 1 one_lt_five

theorem params_start_five : (five.start 1).params = ⟨5, 2, 1⟩ := (ready_five.params_eq one_lt_five).trans params_five

theorem n_start_five_le : (five.start 1).params.n ≤ 11 := by
  rw [params_start_five]
  decide

/-- shareholder 1, which is honest, when everybody has dealt and has read the whole log -/
theorem five_at_rest : ∃ (posts : List (Post (ZMod 11) (ZMod 11))) (s : Shareholder (ZMod 11) (ZMod 11))
    (out : List (Payload (ZMod 11) (ZMod 11))), five.Orderly posts ∧
      Authentic (five.params.dealers.map five.start) (posts.map Post.seal) ∧
        History (five.start 1) (posts.map Post.seal) s out ∧ s.view.qual.isSome ∧ s.view.publicKey.isSome ∧
          s.finalShare.isSome :=
  ready_five.exists_at_rest (injOn_xCoordinate 11 n_five_le) one_lt_five

end DistributedKey.Cast
