/-
The invariant of a shareholder, that under it every reaction answers, and that every reaction keeps it.

- `Fresh`: a shareholder before any message, as `create` makes it (`fresh_create`), with any two polynomials of `k`
  coefficients.
- `Valid`: the tables have an entry for each shareholder, and the view is valid.
-/
import DistributedKey.Proofs.View.Log
import DistributedKey.Proofs.Shareholder.Step

namespace DistributedKey

open Checked

variable {F G : Type}

namespace Shareholder

/-- the state before any message, whatever the two polynomials are -/
structure Fresh [Suite F G] [SMul F G] (s : Shareholder F G) : Prop where
  config : s.group.config.validate = .ok ()
  key : s.group.key? s.index = some (s.privateKey • (generator : G))
  f1_length : s.f1.length = s.params.k
  f2_length : s.f2.length = s.params.k
  contributed : s.contributed = false
  view : s.view = .initial s.params.n
  ownStatuses : s.ownStatuses = List.replicate s.params.n none
  vectorSent : s.vectorSent = false
  shares : s.shares = List.replicate s.params.n none
  finalShare : s.finalShare = none
  alerts : s.alerts = []

structure Valid [Suite F G] [Zero G] [DecidableEq G] (s : Shareholder F G) : Prop where
  admissible : s.params.Admissible
  index_lt : s.index.toNat < s.params.n
  f1_length : s.f1.length = s.params.k
  f2_length : s.f2.length = s.params.k
  view : s.view.Valid s.params
  ownStatuses_length : s.ownStatuses.length = s.params.n
  shares_length : s.shares.length = s.params.n

/-! ## the start -/

theorem length_drawMany [Sampled F] (count : Nat) (rng : Random) :
    (drawMany count rng : List F × Random).1.length = count := by
  induction count generalizing rng with
  | zero => rfl
  | succ count ih => simp [drawMany, ih]

theorem length_draw [Sampled F] (degree : Nat) (rng : Random) :
    (Poly.draw degree rng : Poly F × Random).1.length = degree + 1 :=
  length_drawMany (degree + 1) rng

/-- what a group's check promises over the integers -/
theorem admissible_of_validate {g : Group G} (h : g.config.validate = .ok ()) : g.params.Admissible := by
  rw [Config.validate_eq_ok_iff] at h
  have hsize : (UInt64.ofNat g.size).toNat ≤ g.size := Nat.mod_le _ _
  simp only [Config.admissible, Group.config, Bool.and_eq_true] at h
  obtain ⟨⟨-, hlt⟩, hle⟩ := h
  exact ⟨of_decide_eq_true hlt, (of_decide_eq_true hle).trans hsize⟩

theorem lt_of_key? {g : Group G} {i : Index} {key : G} (h : g.key? i = some key) : i.toNat < g.size := by
  obtain ⟨p, hp, -⟩ := Option.map_eq_some_iff.1 h
  exact (List.getElem?_eq_some_iff.1 hp).1

section

variable [Suite F G] [SMul F G] [DecidableEq G]

/-- **Every shareholder that `create` answers is fresh**, of the given index, key, group and behavior. -/
theorem fresh_create [Sampled F] {index : Index} {privateKey : F} {group : Group G} {behavior : Behavior}
    {rng : Random} {s : Shareholder F G} (h : create index privateKey group behavior rng = .ok s) :
    s.Fresh ∧ s.index = index ∧ s.privateKey = privateKey ∧ s.group = group ∧ s.behavior = behavior := by
  unfold create at h
  rcases hconfig : group.config.validate with cause | u
  · rw [hconfig] at h
    cases h
  · rw [hconfig] at h
    rcases hkey : group.key? index with _ | key
    · rw [hkey] at h
      cases h
    · rw [hkey] at h
      simp only [bind, Except.bind] at h
      split_ifs at h with hmatch
      rw [not_not] at hmatch
      obtain rfl := (Except.ok.inj h).symm
      have hk := (admissible_of_validate hconfig).faults_lt
      have hdegree : group.threshold.toNat - 1 + 1 = group.threshold.toNat := by
        have : group.params.k = group.threshold.toNat := rfl
        omega
      refine ⟨⟨hconfig, hmatch ▸ hkey, ?_, ?_, rfl, rfl, rfl, rfl, rfl, rfl, rfl⟩, rfl, rfl, rfl, rfl⟩
      · exact (length_draw _ _).trans hdegree
      · exact (length_draw _ _).trans hdegree

/-- it answers whoever holds the private key at its index -/
theorem exists_create [Sampled F] {index : Index} {privateKey : F} {group : Group G} (behavior : Behavior)
    (rng : Random) (hconfig : group.config.validate = .ok ())
    (hkey : group.key? index = some (privateKey • (generator : G))) :
    ∃ s, create index privateKey group behavior rng = .ok s := by
  simp only [create, hconfig, hkey, bind, Except.bind, ne_eq, not_true_eq_false, ↓reduceIte]
  exact ⟨_, rfl⟩

/-- the shareholder at `index` of a group before any message, with two given polynomials -/
def started (index : Index) (privateKey : F) (group : Group G) (behavior : Behavior) (rng : Random) (f1 f2 : Poly F) :
    Shareholder F G where
  index := index
  privateKey := privateKey
  group := group
  behavior := behavior
  rng := rng
  f1 := f1
  f2 := f2
  view := .initial group.size
  ownStatuses := List.replicate group.size none
  shares := List.replicate group.size none

omit [DecidableEq G] in
theorem fresh_started {index : Index} {privateKey : F} {group : Group G} {behavior : Behavior} {rng : Random}
    {f1 f2 : Poly F} (hconfig : group.config.validate = .ok ())
    (hkey : group.key? index = some (privateKey • (generator : G))) (h1 : f1.length = group.threshold.toNat)
    (h2 : f2.length = group.threshold.toNat) : (started index privateKey group behavior rng f1 f2).Fresh :=
  ⟨hconfig, hkey, h1, h2, rfl, rfl, rfl, rfl, rfl, rfl, rfl⟩

/-- two shareholders with private keys `x` and `y`, one share to reconstruct, no fault tolerated -/
def pairGroup (x y : F) : Group G := ⟨[⟨0, x • (generator : G)⟩, ⟨1, y • (generator : G)⟩], 1, 0⟩

omit [DecidableEq G] in
theorem validate_pairGroup (x y : F) : (pairGroup x y : Group G).config.validate = .ok () :=
  (Config.validate_eq_ok_iff _).2 rfl

theorem Fresh.valid [Zero G] {s : Shareholder F G} (h : s.Fresh) : s.Valid where
  admissible := admissible_of_validate h.config
  index_lt := lt_of_key? h.key
  f1_length := h.f1_length
  f2_length := h.f2_length
  view := h.view ▸ View.valid_initial s.params
  ownStatuses_length := by rw [h.ownStatuses, List.length_replicate]
  shares_length := by rw [h.shares, List.length_replicate]

end

section

variable {s s' : Shareholder F G} {before : View G} {out : List (Payload F G)} {r : Response F G}

/-! ## pieces of a reaction answer -/

theorem constant?_isSome {k : Nat} {p : Poly F} (h : p.length = k) (hk : 0 < k) : p.constant?.isSome := by
  obtain ⟨_ | ⟨c, cs⟩⟩ := p
  · simp only [Poly.length, List.length_nil] at h
    omega
  · rfl

theorem answers_sumShares [Add F] {shares : List (Option (SharePair F))} {l : List Index} {a b : F}
    (h : ∀ d ∈ l, d.toNat < shares.length) : Answers (sumShares shares l a b) := by
  induction l generalizing a b with
  | nil => exact answers_pure _
  | cons d l ih =>
    refine (answers_entry (h d List.mem_cons_self)).bind fun pair _ => ?_
    split
    · exact ih fun i hi => h i (List.mem_cons_of_mem _ hi)
    · exact answers_pure _

theorem answers_proveShares [Suite F G] [Sub F] [Mul F] [SMul F G] [Wire G] [Sampled F]
    {shares : List (Option (SharePair F))} {l : List Index} {rng : Random}
    (h : ∀ d ∈ l, d.toNat < shares.length) : Answers (proveShares (G := G) shares l rng) := by
  induction l generalizing rng with
  | nil => exact answers_pure _
  | cons d l ih =>
    refine (answers_entry (h d List.mem_cons_self)).bind fun pair _ => ?_
    split
    · exact answers_pure _
    · exact (ih fun i hi => h i (List.mem_cons_of_mem _ hi)).bind fun _ _ => answers_pure _

theorem answers_announce (hp : s.params.Admissible) : Answers s.announce := by
  unfold announce
  split_ifs
  · exact answers_pure _
  · have := hp.bound
    refine (answers_minus (by omega)).bind fun quorum _ => ?_
    split <;> exact answers_pure _

/-! ## every reaction answers -/

variable [Suite F G] [Zero G] [DecidableEq G]

theorem Valid.withView (h : s.Valid) {v : View G} (hv : v.Valid s.params) : { s with view := v }.Valid :=
  { h with view := hv }

theorem Valid.of_identity (h : s.Valid) (hs : s'.identity = s.identity) (hview : s'.view.Valid s.params)
    (hown : s'.ownStatuses.length = s.params.n) (hshares : s'.shares.length = s.params.n) : s'.Valid := by
  have hp : s'.params = s.params := params_eq_of_identity hs
  have hi : s'.index = s.index := index_eq_of_identity hs
  have h1 : s'.f1 = s.f1 := congrArg Identity.f1 hs
  have h2 : s'.f2 = s.f2 := congrArg Identity.f2 hs
  constructor
  · exact hp ▸ h.admissible
  · rw [hp, hi]; exact h.index_lt
  · rw [hp, h1]; exact h.f1_length
  · rw [hp, h2]; exact h.f2_length
  · rw [hp]; exact hview
  · rw [hp]; exact hown
  · rw [hp]; exact hshares

theorem Valid.adopt (h : s.Valid) (d : Index) (b : Rebuttal F) : (s.adopt d b).Valid := by
  refine h.of_identity (adopt_identity s d b) (by rw [adopt_view]; exact h.view) ?_ ?_
  · unfold Shareholder.adopt
    split_ifs <;> simp [h.ownStatuses_length]
  · unfold Shareholder.adopt
    split_ifs <;> simp [h.shares_length]

theorem Valid.qual_lt (h : s.Valid) {q : IndexSet} (hq : s.view.qual = some q) :
    ∀ d ∈ q.elems, d.toNat < s.params.n := fun _ hd => (h.view.qual_endorsed hq hd).1

theorem Valid.rSet_lt (h : s.Valid) {q : IndexSet} (hq : s.view.rSet = some q) :
    ∀ d ∈ q.elems, d.toNat < s.params.n := fun d hd => by
  obtain ⟨q', hq', hsub⟩ := h.view.rSet_subset q hq
  exact h.qual_lt hq' d (hsub d hd)

theorem Valid.answers_tryFinalShare [Zero F] [Add F] (h : s.Valid) : Answers s.tryFinalShare := by
  unfold tryFinalShare
  split_ifs
  · exact answers_pure _
  · split
    · exact answers_pure _
    · rename_i q hq
      refine (answers_sumShares fun d hd => h.shares_length ▸ h.qual_lt hq d hd).bind fun sum _ => ?_
      split <;> exact answers_pure _

section

variable [NatCast F] [Add G] [SMul F G] [Wire F] [Wire G]

theorem Valid.answers_onContribution (h : s.Valid) {d : Index} (hd : d.toNat < s.params.n) (c : Contribution G) :
    Answers (s.onContribution d c) := by
  have hown : d.toNat < s.ownStatuses.length := h.ownStatuses_length ▸ hd
  have hshares : d.toNat < s.shares.length := h.shares_length ▸ hd
  unfold onContribution
  split
  · refine (answers_replace _ hown).bind fun _ _ => (answers_replace _ hshares).bind fun _ _ => ?_
    refine Answers.bind (answers_announce ?_) fun _ _ => answers_pure _
    exact h.admissible
  · exact (answers_replace _ hown).bind fun _ _ => answers_pure _

variable [Zero F] [Add F] [SMul F F] [Sampled F]

theorem Valid.contribute (h : s.Valid) : s.contribute.2.Valid :=
  h.of_identity (contribute_identity s) (by rw [contribute_view]; exact h.view)
    (by rw [contribute_ownStatuses]; exact h.ownStatuses_length) (by rw [contribute_shares]; exact h.shares_length)

end

variable [Sub F] [Mul F] [SMul F G] [Wire G] [Sampled F]

theorem Valid.answers_onProof (h : s.Valid) (before : View G) : Answers (s.onProof before) := by
  unfold onProof
  split
  · rename_i q _ hq
    refine (answers_proveShares fun d hd => h.shares_length ▸ h.rSet_lt hq d hd).bind fun out _ => ?_
    dsimp only
    split <;> exact answers_pure _
  · exact answers_pure _

variable [Zero F] [Add F]

theorem Valid.answers_onQual (h : s.Valid) (before : View G) : Answers (s.onQual before) := by
  have hk : 0 < s.params.k := Nat.zero_lt_of_lt h.admissible.faults_lt
  unfold onQual
  split
  · refine h.answers_tryFinalShare.bind fun s₁ hs₁ => ?_
    rw [tryFinalShare_frame hs₁]
    dsimp only
    split_ifs
    · refine (answers_present (constant?_isSome h.f1_length hk)).bind fun _ _ => ?_
      refine (answers_present (constant?_isSome h.f2_length hk)).bind fun _ _ => ?_
      exact answers_pure _
    · exact answers_pure _
  · exact answers_pure _

theorem Valid.onQual (h : s.Valid) (hok : s.onQual before = .ok (s', out)) : s'.Valid := by
  rw [onQual_frame hok]
  exact { h with }

theorem Valid.answers_onRebuttal (h : s.Valid) {d : Index} (hd : d.toNat < s.params.n) (before : View G)
    (b : Rebuttal F) : Answers (s.onRebuttal before d b) := by
  have hown : d.toNat < s.ownStatuses.length := h.ownStatuses_length ▸ hd
  have hshares : d.toNat < s.shares.length := h.shares_length ▸ hd
  have hadopt : s.onRebuttal before d b =
      (do
        let answer ← (s.adopt d b).onQual before
        return ⟨← answer.1.tryFinalShare, answer.2, []⟩) := by
    unfold Shareholder.onRebuttal Shareholder.adopt
    split_ifs
    · simp [replace, hown, hshares, bind, Except.bind, pure, Except.pure]
    · rfl
  rw [hadopt]
  refine ((h.adopt d b).answers_onQual before).bind fun out hout => ?_
  exact ((h.adopt d b).onQual hout).answers_tryFinalShare.bind fun _ _ => answers_pure _

variable [NatCast F] [SMul F F] [Add G] [Wire F]

theorem Valid.answers_react (h : s.Valid) {j : Index} (hj : j.toNat < s.params.n) (before : View G)
    {payload : Payload F G} (hlen : ∀ statuses, payload = .verification statuses → statuses.length = s.params.n) :
    Answers (s.react before j payload) := by
  cases payload with
  | contribution c => exact h.answers_onContribution hj c
  | verification statuses =>
    refine (answers_entry (by rw [hlen _ rfl]; exact h.index_lt)).bind fun _ _ => ?_
    exact (h.answers_onQual before).bind fun _ _ => answers_pure _
  | rebuttal b => exact h.answers_onRebuttal hj before b
  | proof π => exact h.answers_onProof before
  | bulkProof b => exact answers_pure _

/-! ## what a reaction keeps -/

theorem react_lengths {j : Index} {payload : Payload F G} (h : s.react before j payload = .ok r) :
    r.shareholder.ownStatuses.length = s.ownStatuses.length ∧ r.shareholder.shares.length = s.shares.length := by
  cases payload with
  | contribution c =>
    obtain ⟨-, ⟨cause, -, rfl⟩ | ⟨pair, s₁, out, -, -, hannounce, rfl⟩⟩ := onContribution_cases h
    · exact ⟨List.length_set, rfl⟩
    · dsimp only
      rw [announce_frame hannounce]
      exact ⟨List.length_set, List.length_set⟩
  | verification statuses => rw [onVerification_frame h]; exact ⟨rfl, rfl⟩
  | rebuttal b =>
    rw [onRebuttal_frame h]
    unfold Shareholder.adopt
    split_ifs <;> simp
  | proof π => rw [onProof_frame h]; exact ⟨rfl, rfl⟩
  | bulkProof b =>
    simp only [react, pure_eq_ok] at h
    rw [← h]
    exact ⟨rfl, rfl⟩

theorem Valid.react (h : s.Valid) {j : Index} {payload : Payload F G} (hok : s.react before j payload = .ok r) :
    r.shareholder.Valid := by
  obtain ⟨hown, hshares⟩ := react_lengths hok
  exact h.of_identity (react_identity hok) (react_view hok ▸ h.view) (hown.trans h.ownStatuses_length)
    (hshares.trans h.shares_length)

end

end Shareholder

end DistributedKey
