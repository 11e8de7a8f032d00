/-
Every group comes to rest, whatever others post, if they post finitely often.

No shareholder broadcasts more than its budget, so the log can grow by the budgets and by what others post, and no further.
From the last post of others on, each move of a shareholder that does anything leaves less to do: it reads an entry, or it
deals. So only finitely many moves do anything, and after the last of them whoever reads again and again has read the whole
log, and whoever has had a turn to deal has dealt.

- `Fair`: a schedule in which everybody reads again and again and others post finitely often.
- `Run`: the sessions that a schedule leads through. `exists_run`: none of its moves fails.
- `Run.exists_idle`: from some time on nothing happens any more. `Run.drained`, `Run.dealt`: by then all is read, and all
  have dealt.
- `output_bounded`: each shareholder broadcasts little, every fair run of a group comes to rest, and so does a group that
  reads until nothing is left.
-/
import DistributedKey.Proofs.Rounds
import DistributedKey.Proofs.Secrecy
import DistributedKey.Proofs.Silent.Uniform

namespace DistributedKey

variable {F G : Type}
variable {members : List (Shareholder F G)} {m : Nat → Move} {σ : Nat → Session F G} {i : Index} {k₁ : Nat}

/-! ## groups -/

/-- what members may broadcast in all -/
def capacity (members : List (Shareholder F G)) : Nat := (members.map fun s₀ => s₀.params.n + 4).sum

namespace Session

/-- the members before any move -/
def ofMembers (members : List (Shareholder F G)) : Session F G := { readers := members.map fun s₀ => ⟨s₀, 0⟩ }

theorem index_ofMembers : (ofMembers members).readers.map index = members.map (·.index) := by
  simp [ofMembers, index]

section

variable [Suite F G] [SMul F G]

/-- at the start only the budgets of the members are there to be spent -/
theorem reach_ofMembers (hmembers : ∀ s₀ ∈ members, s₀.Fresh) : (ofMembers members).reach = capacity members := by
  have hbudgets : members.map (·.budget) = members.map fun s₀ => s₀.params.n + 4 :=
    List.map_congr_left fun s₀ hs₀ => (hmembers s₀ hs₀).budget_eq
  have hreaders : (ofMembers members).readers.map (·.shareholder.budget) = members.map (·.budget) := by
    simp [ofMembers]
  rw [reach, budgets, hreaders, hbudgets]
  exact Nat.zero_add _

variable [Zero G] [DecidableEq G]

theorem sane_ofMembers (hmembers : ∀ s₀ ∈ members, s₀.Fresh) (hdistinct : (members.map (·.index)).Nodup) :
    (ofMembers members).Sane := by
  constructor
  · intro r hr
    obtain ⟨s₀, hs₀, rfl⟩ := List.mem_map.1 hr
    exact (hmembers s₀ hs₀).valid
  · intro r hr
    obtain ⟨s₀, hs₀, rfl⟩ := List.mem_map.1 hr
    exact Nat.zero_le _
  · rw [index_ofMembers]
    exact hdistinct

end

variable [Suite F G] [NatCast F] [Zero F] [One F] [Add F] [Sub F] [Mul F] [Inv F] [SMul F F] [Zero G] [Add G]
  [SMul F G] [Wire F] [Wire G] [Sampled F] [DecidableEq F] [DecidableEq G]

/-- a group does not fail, and its log is no longer than what others have posted and what the members may broadcast -/
theorem moves_ofMembers (hmembers : ∀ s₀ ∈ members, s₀.Fresh) (hdistinct : (members.map (·.index)).Nodup)
    {ms : List Move} (hms : ∀ m ∈ ms, m.Of (members.map (·.index))) :
    ∃ σ, (ofMembers members).moves ms = some σ ∧ σ.Sane ∧ σ.readers.map index = members.map (·.index) ∧
      σ.reach ≤ ms.countP Move.isPost + capacity members := by
  rw [← index_ofMembers] at hms
  obtain ⟨σ, hmoves, hsane, hindices, hreach⟩ := (sane_ofMembers hmembers hdistinct).moves hms
  refine ⟨σ, hmoves, hsane, hindices.trans index_ofMembers, ?_⟩
  rwa [reach_ofMembers hmembers, Nat.add_comm] at hreach

end Session

/-! ## schedules -/

/-- a schedule of the moves of members and of others: each member reads again and again, and others post finitely often -/
structure Fair (members : List (Shareholder F G)) (m : Nat → Move) : Prop where
  own : ∀ k, (m k).Of (members.map (·.index))
  posts : {k | (m k).isPost}.Finite
  reads : ∀ s₀ ∈ members, ∀ k₀, ∃ k ≥ k₀, m k = .read s₀.index

/-- the first moves of a schedule -/
def firstMoves (m : Nat → Move) (k : Nat) : List Move := (List.range k).map m

theorem firstMoves_succ (m : Nat → Move) (k : Nat) : firstMoves m (k + 1) = firstMoves m k ++ [m k] := by
  rw [firstMoves, List.range_succ, List.map_append, List.map_singleton, firstMoves]

variable [Suite F G] [NatCast F] [Zero F] [One F] [Add F] [Sub F] [Mul F] [Inv F] [SMul F F] [Zero G] [Add G]
  [SMul F G] [Wire F] [Wire G] [Sampled F] [DecidableEq F] [DecidableEq G]

/-- the sessions that the moves of a schedule lead through -/
structure Run (members : List (Shareholder F G)) (m : Nat → Move) (σ : Nat → Session F G) : Prop where
  moves : ∀ k, (Session.ofMembers members).moves (firstMoves m k) = some (σ k)
  sane : ∀ k, (σ k).Sane
  indices : ∀ k, (σ k).readers.map Session.index = members.map (·.index)
  reach_le : ∀ k, (σ k).reach ≤ (firstMoves m k).countP Move.isPost + capacity members
  step : ∀ k, Session.Step (σ k) (m k) (σ (k + 1))

/-- what lowers a measure whenever it fails holds from some time on -/
theorem eventually_of_lt {P : Nat → Prop} {k₀ : Nat} (measure : Nat → Nat)
    (h : ∀ k ≥ k₀, P k ∧ measure (k + 1) = measure k ∨ measure (k + 1) < measure k) : ∃ k₁ ≥ k₀, ∀ k ≥ k₁, P k := by
  generalize htotal : measure k₀ = total
  induction total using Nat.strong_induction_on generalizing k₀ with
  | _ total ih =>
    have hmono : ∀ k ≥ k₀, measure k ≤ total := by
      intro k hk
      induction k, hk using Nat.le_induction with
      | base => exact htotal.le
      | succ k hk ih => rcases h k hk with ⟨-, hsame⟩ | hlt <;> omega
    by_cases hall : ∀ k ≥ k₀, P k
    · exact ⟨k₀, le_rfl, hall⟩
    · -- from the first failure on there is less left
      simp only [not_forall] at hall
      obtain ⟨k, hk, hnot⟩ := hall
      have hlt : measure (k + 1) < total := ((h k hk).resolve_left fun hP => hnot hP.1).trans_le (hmono k hk)
      have hlater : ∀ j ≥ k + 1, j ≥ k₀ := fun j hj => by omega
      obtain ⟨k₁, hk₁, hall⟩ := ih _ hlt (fun j hj => h j (hlater j hj)) rfl
      exact ⟨k₁, hlater k₁ hk₁, hall⟩

theorem exists_run (hmembers : ∀ s₀ ∈ members, s₀.Fresh) (hdistinct : (members.map (·.index)).Nodup)
    (hown : ∀ k, (m k).Of (members.map (·.index))) : ∃ σ, Run members m σ := by
  have hfirst : ∀ k, ∀ x ∈ firstMoves m k, x.Of (members.map (·.index)) := by
    intro k x hx
    obtain ⟨j, -, rfl⟩ := List.mem_map.1 hx
    exact hown j
  choose σ hmoves hsane hindices hreach using fun k => Session.moves_ofMembers hmembers hdistinct (hfirst k)
  refine ⟨σ, hmoves, hsane, hindices, hreach, fun k => ?_⟩
  obtain ⟨σ', hmove, hstep⟩ := (hsane k).step (hindices k ▸ hown k)
  have hnext : (Session.ofMembers members).moves (firstMoves m (k + 1)) = some σ' := by
    rw [firstMoves_succ, Session.moves_append, hmoves k]
    simp [hmove, Session.moves]
  obtain rfl := Option.some.inj ((hmoves (k + 1)).symm.trans hnext)
  exact hstep

namespace Run

theorem dealt_mono (h : Run members m σ) {k k' : Nat} (hk : k ≤ k') (hdealt : (σ k).Dealt i) : (σ k').Dealt i := by
  induction k', hk using Nat.le_induction with
  | base => exact hdealt
  | succ k' _ ih => exact (h.step k').dealt ih

/-- **From some time on nothing happens any more**, because from the last post of others on each move that does
something leaves less to do. -/
theorem exists_idle (h : Run members m σ) (hposts : {k | (m k).isPost}.Finite) :
    ∃ k₁, ∀ k ≥ k₁, σ k = σ k₁ ∧ (σ k₁).Idle (m k) := by
  obtain ⟨last, hlast⟩ := hposts.bddAbove
  have hquiet : ∀ k ≥ last + 1, (m k).isPost = false := by
    intro k hk
    by_contra hpost
    have hle : k ≤ last := hlast (Bool.eq_true_of_not_eq_false hpost)
    omega
  have hbound : ∀ k ≥ last + 1, (σ k).reach ≤ (σ (last + 1)).reach := by
    intro k hk
    induction k, hk using Nat.le_induction with
    | base => exact le_rfl
    | succ k hk ih =>
      have hreach := (h.step k).reach_le (h.sane k)
      rw [hquiet k hk] at hreach
      exact hreach.trans ih
  obtain ⟨k₁, -, hidle⟩ : ∃ k₁ ≥ last + 1, ∀ k ≥ k₁, σ (k + 1) = σ k ∧ (σ k).Idle (m k) := by
    refine eventually_of_lt (fun k => ((σ k).readers.map (Session.toDo (σ (last + 1)).reach)).sum) ?_
    intro k hk
    rcases (h.step k).idle_or_lt (h.sane k) (hquiet k hk) (hbound k hk) with hidle | hlt
    · exact Or.inl ⟨hidle, by simp only [hidle.1]⟩
    · exact Or.inr hlt
  have hsame : ∀ k ≥ k₁, σ k = σ k₁ := by
    intro k hk
    induction k, hk using Nat.le_induction with
    | base => rfl
    | succ k hk ih => exact (hidle k hk).1.trans ih
  exact ⟨k₁, fun k hk => ⟨hsame k hk, hsame k hk ▸ (hidle k hk).2⟩⟩

theorem exists_member (h : Run members m σ) {k : Nat} {r : Reader F G} (hr : r ∈ (σ k).readers) :
    ∃ s₀ ∈ members, s₀.index = Session.index r :=
  List.mem_map.1 (h.indices k ▸ List.mem_map_of_mem hr)

/-- who still reads although nothing happens has read everything -/
theorem drained (h : Run members m σ) (hfair : Fair members m) (hidle : ∀ k ≥ k₁, σ k = σ k₁ ∧ (σ k₁).Idle (m k)) :
    (σ k₁).Drained := by
  intro r hr
  obtain ⟨s₀, hs₀, hindex⟩ := h.exists_member hr
  obtain ⟨k, hk, hread⟩ := hfair.reads s₀ hs₀ k₁
  have hnothing := (hidle k hk).2
  rw [hread] at hnothing
  exact hnothing r hr hindex.symm

/-- who has a turn to deal has dealt by then -/
theorem dealt (h : Run members m σ) (hdeals : ∀ s₀ ∈ members, ∃ k, m k = .deal s₀.index)
    (hidle : ∀ k ≥ k₁, σ k = σ k₁ ∧ (σ k₁).Idle (m k)) :
    ∀ r ∈ (σ k₁).readers, r.shareholder.contributed = true := by
  intro r hr
  obtain ⟨s₀, hs₀, hindex⟩ := h.exists_member hr
  obtain ⟨k, hk⟩ := hdeals s₀ hs₀
  have hdealt : (σ (k + 1)).Dealt s₀.index := (hk ▸ h.step k).dealt_of_deal
  have hthen := h.dealt_mono (le_max_left (k + 1) k₁) hdealt
  rw [(hidle _ (le_max_right _ _)).1] at hthen
  exact hthen r hr hindex.symm

end Run

/-- **Bounded output.** Whatever a member reads and however often it deals, it broadcasts little. So a group comes to rest
whatever others post, if they post finitely often: from some time on no move changes anything, everybody has read the
whole log and, if everybody has a turn to deal, has dealt. And whenever a group reads until nothing is left, then this
ends with everything read. The log holds at most what others have posted and what the members may broadcast. -/
theorem output_bounded (hmembers : ∀ s₀ ∈ members, s₀.Fresh) (hdistinct : (members.map (·.index)).Nodup) :
    (∀ s₀ ∈ members, ∀ log s out, History s₀ log s out → Frugal s₀ s log out) ∧
    (∀ m : Nat → Move, Fair members m → ∃ (k₁ : Nat) (σ : Session F G),
      (∀ k ≥ k₁, (Session.ofMembers members).moves (firstMoves m k) = some σ) ∧ σ.Drained ∧
      ((∀ s₀ ∈ members, ∃ k, m k = .deal s₀.index) → σ.Quiescent) ∧
      σ.board.length ≤ (firstMoves m k₁).countP Move.isPost + capacity members) ∧
    ∀ ms : List Move, (∀ m ∈ ms, m.Of (members.map (·.index))) →
      ∃ σ, (Session.ofMembers members).moves ms = some σ ∧ ∀ except, ∃ log σ', σ.run except = some (log, σ') ∧
        (∀ r ∈ σ'.readers, Session.index r ∉ except → r.cursor = σ'.board.length) ∧
        σ'.board.length ≤ ms.countP Move.isPost + capacity members := by
  refine ⟨fun s₀ hs₀ log s out h => h.frugal (hmembers s₀ hs₀), fun m hfair => ?_, fun ms hms => ?_⟩
  · obtain ⟨σ, h⟩ := exists_run hmembers hdistinct hfair.own
    obtain ⟨k₁, hidle⟩ := h.exists_idle hfair.posts
    have hdrained := h.drained hfair hidle
    refine ⟨k₁, σ k₁, fun k hk => ?_, hdrained, fun hdeals r hr => ⟨h.dealt hdeals hidle r hr, hdrained r hr⟩, ?_⟩
    · rw [h.moves k, (hidle k hk).1]
    · calc (σ k₁).board.length
          ≤ (σ k₁).reach := Nat.le_add_right _ _
        _ ≤ _ := h.reach_le k₁
  · obtain ⟨σ, hmoves, hsane, -, hreach⟩ := Session.moves_ofMembers hmembers hdistinct hms
    refine ⟨σ, hmoves, fun except => ?_⟩
    obtain ⟨log, σ', hrun, hreads, hend⟩ := hsane.run except
    refine ⟨log, σ', hrun, hend, ?_⟩
    calc σ'.board.length
        ≤ σ'.reach := Nat.le_add_right _ _
      _ ≤ σ.reach := hreads.reach_le
      _ ≤ _ := hreach

/-- a complaint is posted, and then everybody has a turn to deal and one to read, over and over -/
def Cast.rota (k : Nat) : Move :=
  if k = 0 then .post (complaintOfThree.toEnvelope 3)
  else if k % 10 < 5 then .deal (UInt32.ofNat (k % 10))
  else .read (UInt32.ofNat (k % 10 - 5))

theorem Cast.isPost_rota (k : Nat) : (Cast.rota k).isPost = (k == 0) := by
  unfold Cast.rota
  split_ifs with hzero hdeal <;> simp [Move.isPost, hzero]

theorem Cast.fair_rota : Fair (Cast.five.params.dealers.map Cast.five.start) Cast.rota := by
  have hmember : ∀ j < 5, UInt32.ofNat j ∈ (Cast.five.params.dealers.map Cast.five.start).map (·.index) := by
    intro j hj
    rw [Cast.ready_five.indices_members, Cast.params_five]
    exact List.mem_map_of_mem (List.mem_range.2 hj)
  constructor
  · intro k
    unfold Cast.rota
    split_ifs with hzero hdeal
    · exact trivial
    · exact hmember _ hdeal
    · exact hmember _ (by omega)
  · refine (Set.finite_singleton 0).subset fun k hk => ?_
    have hpost : (Cast.rota k).isPost = true := hk
    rw [Cast.isPost_rota] at hpost
    exact beq_iff_eq.1 hpost
  · intro s₀ hs₀ k₀
    obtain ⟨i, hi, rfl⟩ := List.mem_map.1 hs₀
    rw [Cast.params_five] at hi
    obtain ⟨j, hj, rfl⟩ := List.mem_map.1 hi
    have hj : j < 5 := List.mem_range.1 hj
    refine ⟨10 * k₀ + 5 + j, by omega, ?_⟩
    have hturn : (10 * k₀ + 5 + j) % 10 = 5 + j := by omega
    have hindex : (Cast.five.start (UInt32.ofNat j)).index = UInt32.ofNat j := rfl
    rw [Cast.rota, if_neg (by omega), hturn, if_neg (by omega), hindex, Nat.add_sub_cancel_left]

/-- five shareholders come to rest after a complaint that nobody has a reason for -/
theorem output_bounded_five : ∃ (k₁ : Nat) (σ σ' : Session (ZMod 11) (ZMod 11)) (s : Shareholder (ZMod 11) (ZMod 11))
    (out : List (Payload (ZMod 11) (ZMod 11))) (notices : List Session.LogLine),
    (∀ k ≥ k₁, (Session.ofMembers (Cast.five.params.dealers.map Cast.five.start)).moves (firstMoves Cast.rota k) =
      some σ) ∧ σ.Quiescent ∧ σ.board.length ≤ 46 ∧
    σ.run [0] = some (notices, σ') ∧ σ'.board.length ≤ 46 ∧
    History (Cast.five.start 1) [complaintOfThree.toEnvelope 3] s out ∧
      Frugal (Cast.five.start 1) s [complaintOfThree.toEnvelope 3] out := by
  have hfresh : ∀ s₀ ∈ Cast.five.params.dealers.map Cast.five.start, s₀.Fresh ∧ s₀.params = ⟨5, 2, 1⟩ := by
    intro s₀ hs₀
    obtain ⟨hs₀, hparams⟩ := Cast.ready_five.fresh_members s₀ hs₀
    exact ⟨hs₀, hparams.trans Cast.params_five⟩
  have hone : Cast.five.start 1 ∈ Cast.five.params.dealers.map Cast.five.start := by
    rw [Cast.params_five]
    exact List.mem_map_of_mem (by decide)
  have hcapacity : capacity (Cast.five.params.dealers.map Cast.five.start) = 45 := by
    rw [capacity, List.map_congr_left fun s₀ hs₀ => congrArg (·.n + 4) (hfresh s₀ hs₀).2, Cast.params_five]
    rfl
  have hposts : ∀ k, (firstMoves Cast.rota k).countP Move.isPost ≤ 1 := by
    intro k
    have hzero : (firstMoves Cast.rota k).countP Move.isPost = (List.range k).count 0 := by
      rw [firstMoves, List.countP_map]
      exact congrArg (List.countP · _) (funext Cast.isPost_rota)
    rw [hzero]
    exact List.nodup_iff_count_le_one.1 List.nodup_range 0
  obtain ⟨hfrugal, hrest, hloop⟩ := output_bounded (fun s₀ hs₀ => (hfresh s₀ hs₀).1)
    (Cast.ready_five.indices_members.symm ▸ Cast.ready_five.indices)
  obtain ⟨k₁, σ, hmoves, -, hquiescent, hlength⟩ := hrest _ Cast.fair_rota
  obtain ⟨σ₁, hmoves₁, hruns⟩ := hloop (firstMoves Cast.rota k₁) fun m hm => by
    obtain ⟨j, -, rfl⟩ := List.mem_map.1 hm
    exact Cast.fair_rota.own j
  obtain rfl := Option.some.inj (hmoves₁.symm.trans (hmoves k₁ le_rfl))
  obtain ⟨notices, σ', hrun, -, hlength'⟩ := hruns [0]
  obtain ⟨s, out, hs⟩ := History.exists_of_log Cast.fresh_five.valid [complaintOfThree.toEnvelope 3]
  have hbound := hposts k₁
  refine ⟨k₁, σ₁, σ', s, out, notices, hmoves, hquiescent fun s₀ hs₀ => ?_, by omega, hrun, by omega, hs,
    hfrugal _ hone _ s out hs⟩
  obtain ⟨i, hi, rfl⟩ := List.mem_map.1 hs₀
  rw [Cast.params_five] at hi
  obtain ⟨j, hj, rfl⟩ := List.mem_map.1 hi
  have hj : j < 5 := List.mem_range.1 hj
  refine ⟨10 + j, ?_⟩
  have hturn : (10 + j) % 10 = j := by omega
  rw [Cast.rota, if_neg (by omega), hturn, if_pos hj]
  rfl

end DistributedKey
