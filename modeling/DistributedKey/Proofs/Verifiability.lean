/-
Verifiability: whatever the log holds, the shares that add up to the secret open the commitments that all can see.

`F` is a field and `G` a vector space over it; `r` is the characteristic of `F`, above the number of shareholders.

- `FinalOpens`: a final share opens the sum of the commitment vectors of QUAL, evaluated for its holder. It is kept by
  every delivery, whichever way the shares came in.
- `Team`: as many holders as it takes to recover the secret, each at a prefix of one log of its own.
- `shares_verifiable`: what a team recovers opens the sum of the constant terms of QUAL. So all teams open the same
  commitment, and two that recover different secrets know the logarithm of `h` to `g`.
-/
import DistributedKey.Proofs.Interpolation
import DistributedKey.Proofs.ShareTable
import DistributedKey.Proofs.Silent.Rest
import DistributedKey.Proofs.Silent.Uniform

namespace DistributedKey

open Checked

variable {F G : Type}

/-! ## the commitments of QUAL -/

namespace View

/-- the commitment vectors of the members of QUAL; none while QUAL is open or a vector is missing -/
def qualCommitments? (v : View G) : Option (List (Poly G)) :=
  v.qual.bind fun q => q.elems.mapM fun d => (v.commitments[d.toNat]?).join

/-- their constant terms -/
def qualConstants? (v : View G) : Option (List G) := v.qualCommitments?.bind fun cs => cs.mapM Poly.constant?

theorem mapM_eq_some {α β : Type} {f : α → Option β} {l : List α} {l' : List β} :
    l.mapM f = some l' ↔ l.map f = l'.map some := by
  induction l generalizing l' with
  | nil => cases l' <;> simp
  | cons a l ih =>
    cases l' with
    | nil => simp [Option.bind_eq_some_iff]
    | cons b l' => simp [Option.bind_eq_some_iff, ih]

theorem exists_map_some {α β : Type} {f : α → Option β} {l : List α} (h : ∀ a ∈ l, (f a).isSome) :
    ∃ l' : List β, l.map f = l'.map some := by
  induction l with
  | nil => exact ⟨[], rfl⟩
  | cons a l ih =>
    obtain ⟨b, hb⟩ := Option.isSome_iff_exists.1 (h a List.mem_cons_self)
    obtain ⟨l', hl'⟩ := ih fun a' ha' => h a' (List.mem_cons_of_mem _ ha')
    exact ⟨b :: l', by rw [List.map_cons, hb, hl', List.map_cons]⟩

theorem qualCommitments?_eq_some {v : View G} {cs : List (Poly G)} :
    v.qualCommitments? = some cs ↔
      ∃ q, v.qual = some q ∧ q.elems.map (fun d => (v.commitments[d.toNat]?).join) = cs.map some := by
  simp [qualCommitments?, Option.bind_eq_some_iff, mapM_eq_some]

theorem Settles.qualCommitments? {v v' : View G} (h : Settles v v') {cs : List (Poly G)}
    (hcs : v.qualCommitments? = some cs) : v'.qualCommitments? = some cs := by
  obtain ⟨q, hq, hmap⟩ := qualCommitments?_eq_some.1 hcs
  refine qualCommitments?_eq_some.2 ⟨q, h.qual q hq, hmap ▸ List.map_congr_left fun d hd => ?_⟩
  have hmem : (v.commitments[d.toNat]?).join ∈ cs.map some := hmap ▸ List.mem_map_of_mem hd
  obtain ⟨c, -, hc⟩ := List.mem_map.1 hmem
  have hc' : v.commitments[d.toNat]? = some (some c) := Option.join_eq_some_iff.1 hc.symm
  rw [hc', h.commitments d.toNat c hc']

theorem Valid.length_of_qualCommitments? [Suite F G] [Zero G] [DecidableEq G] {p : Params} {v : View G}
    (h : Valid p v) {cs : List (Poly G)} (hcs : v.qualCommitments? = some cs) : ∀ c ∈ cs, c.length = p.k := by
  intro c hc
  obtain ⟨q, -, hmap⟩ := qualCommitments?_eq_some.1 hcs
  have hmem : some c ∈ q.elems.map fun d => (v.commitments[d.toNat]?).join := hmap ▸ List.mem_map_of_mem hc
  obtain ⟨d, -, hd⟩ := List.mem_map.1 hmem
  have hcheck := (h.committed d.toNat c (Option.join_eq_some_iff.1 hd)).2
  unfold checkCommitments at hcheck
  split_ifs at hcheck with hlen
  exact not_not.1 hlen

end View

variable [Field F] [AddCommGroup G] [Module F G]

/-- the constant terms of commitment vectors that are not empty, and what these are at zero -/
theorem exists_constants {k : Nat} (hk : 0 < k) {cs : List (Poly G)} (hlen : ∀ c ∈ cs, c.length = k) :
    ∃ zs, cs.mapM Poly.constant? = some zs ∧ (Poly.sum cs).eval (0 : F) = zs.sum := by
  induction cs with
  | nil => exact ⟨[], rfl, rfl⟩
  | cons c cs ih =>
    obtain ⟨zs, hzs, hsum⟩ := ih fun c' hc' => hlen c' (List.mem_cons_of_mem _ hc')
    obtain ⟨_ | ⟨z, rest⟩⟩ := c
    · have := hlen ⟨[]⟩ List.mem_cons_self
      simp only [Poly.length, List.length_nil] at this
      omega
    · refine ⟨z :: zs, by simp [hzs, Poly.constant?], ?_⟩
      rw [Poly.eval_sum, List.map_cons, List.sum_cons, ← Poly.eval_sum, hsum, Poly.eval_zero]
      rfl

variable [Suite F G]

/-- committing to a pair, as a linear map -/
def pedersenMap (F G : Type) [Field F] [AddCommGroup G] [Module F G] [Suite F G] : F × F →ₗ[F] G :=
  (LinearMap.toSpanSingleton F G generator).coprod (LinearMap.toSpanSingleton F G blinding)

/-- two openings of one commitment with different values give the logarithm of `h` to `g` -/
theorem logarithm_of_pedersen_eq (hg : (generator : G) ≠ 0) {a b a' b' : F}
    (h : (pedersen a b : G) = pedersen a' b') (hne : a ≠ a') :
    b' ≠ b ∧ (blinding : G) = ((a - a') / (b' - b)) • (generator : G) := by
  have hscaled : (a - a') • (generator : G) = (b' - b) • (blinding : G) := by
    rw [sub_smul, sub_smul, sub_eq_sub_iff_add_eq_add, add_comm (b' • blinding)]
    exact h
  have hb : b' ≠ b := by
    rintro rfl
    rw [sub_self, zero_smul] at hscaled
    exact (smul_ne_zero (sub_ne_zero.2 hne) hg) hscaled
  refine ⟨hb, ?_⟩
  rw [div_eq_inv_mul, mul_smul, hscaled, inv_smul_smul₀ (sub_ne_zero.2 hb)]

namespace Shareholder

variable {s s' : Shareholder F G} {e : Envelope}

/-! ## one final share -/

/-- a final share is the holder's own and opens the commitments of QUAL, evaluated for the holder -/
def FinalOpens (s : Shareholder F G) : Prop :=
  ∀ pair, s.finalShare = some pair → pair.index = s.index ∧ ∃ cs, s.view.qualCommitments? = some cs ∧
    (pedersen pair.value pair.blinding : G) = (cs.map (·.eval (xCoordinate s.index : F))).sum

theorem FinalOpens.of_settles (h : s.FinalOpens) (hindex : s'.index = s.index) (hfinal : s'.finalShare = s.finalShare)
    (hview : View.Settles s.view s'.view) : s'.FinalOpens := fun pair hpair => by
  obtain ⟨hown, cs, hcs, hsum⟩ := h pair (hfinal ▸ hpair)
  exact ⟨hown.trans hindex.symm, cs, hview.qualCommitments? hcs, by rw [hindex]; exact hsum⟩

variable [DecidableEq G]

/-- shares that open commitments add up to a pair that opens the sum of the commitments -/
theorem sumShares_opens {shares : List (Option (SharePair F))} {commitments : List (Option (Poly G))} {i : Index}
    (hopens : ∀ (d : Nat) (pair : SharePair F), shares[d]? = some (some pair) →
      ∃ c, commitments[d]? = some (some c) ∧ View.shareCorrect pair i c = true)
    {l : List Index} {a b x y : F} (h : sumShares shares l a b = .ok (some (x, y))) :
    ∃ cs : List (Poly G), l.map (fun d => (commitments[d.toNat]?).join) = cs.map some ∧
      (pedersen x y : G) = pedersen a b + (cs.map (·.eval (xCoordinate i : F))).sum := by
  induction l generalizing a b with
  | nil =>
    simp only [sumShares, pure_eq_ok, Option.some.injEq, Prod.mk.injEq] at h
    obtain ⟨rfl, rfl⟩ := h
    exact ⟨[], rfl, by simp⟩
  | cons d l ih =>
    simp only [sumShares, bind_eq_ok, entry_eq_ok] at h
    obtain ⟨_ | pair, hpair, h⟩ := h
    · simp at h
    · obtain ⟨cs, hmap, hsum⟩ := ih h
      obtain ⟨c, hc, hcorrect⟩ := hopens d.toNat pair hpair
      have hopen : c.eval (xCoordinate i : F) = pedersen pair.value pair.blinding := of_decide_eq_true hcorrect
      refine ⟨c :: cs, by simp [hmap, hc], ?_⟩
      rw [hsum, List.map_cons, List.sum_cons, hopen]
      simp only [pedersen, add_smul]
      abel

theorem FinalOpens.tryFinalShare (hs : s.Sound) (h : s.FinalOpens) (hok : s.tryFinalShare = .ok s') :
    s'.FinalOpens := by
  rcases tryFinalShare_cases hok with ⟨rfl, -⟩ | ⟨q, value, blinding, -, hq, hsum, rfl⟩
  · exact h
  · rintro pair hpair
    obtain rfl : (⟨s.index, value, blinding⟩ : SharePair F) = pair := Option.some.inj hpair
    obtain ⟨cs, hmap, hopen⟩ := sumShares_opens (fun d pair hd => (hs.opens d pair hd).2) hsum
    refine ⟨rfl, cs, View.qualCommitments?_eq_some.2 ⟨q, hq, hmap⟩, ?_⟩
    rw [hopen]
    simp [pedersen]

variable [Wire G] [Sampled F]

theorem FinalOpens.onQual (hs : s.Sound) (h : s.FinalOpens) {before : View G} {out : List (Payload F G)}
    (hok : s.onQual before = .ok (s', out)) : s'.FinalOpens :=
  onQual_keeps h (fun _ hfinal => h.tryFinalShare hs hfinal) (fun _ _ hs₁ => hs₁.of_settles rfl rfl (.refl _)) hok

variable [DecidableEq F] [Wire F]

theorem FinalOpens.delivered (hv : s.Valid) (hs : s.Sound) (h : s.FinalOpens) {r : Response F G}
    (hd : Delivered s e r) : r.shareholder.FinalOpens := by
  cases hd with
  | refused cause hno => exact h.of_settles rfl rfl (.refl _)
  | @accepted payload view notices r hpayload hsender hstep hreact =>
    have hsettles : View.Settles s.view view := View.settles_step hv.view hstep
    have hview : FinalOpens { s with view } := h.of_settles rfl rfl hsettles
    change r.shareholder.FinalOpens
    cases payload with
    | contribution c =>
      rw [onContribution_frame hreact]
      exact hview.of_settles rfl rfl (.refl _)
    | verification statuses =>
      obtain ⟨own, s₁, out, -, hqual, rfl⟩ := onVerification_cases hreact
      exact hview.onQual (hs.withView hv hstep (by simp)) hqual
    | rebuttal b =>
      obtain ⟨s₁, s₂, out, hqual, hfinal, rfl, -⟩ := onRebuttal_cases hreact
      have hadopt : (Shareholder.adopt { s with view } e.sender b).FinalOpens := by
        unfold Shareholder.adopt
        split_ifs
        · exact hview.of_settles rfl rfl (.refl _)
        · exact hview
      have hsound := hs.adopt_taken hv hstep
      exact (hadopt.onQual hsound hqual).tryFinalShare (hsound.onQual hqual) hfinal
    | proof π =>
      rw [onProof_frame hreact]
      exact hview.of_settles rfl rfl (.refl _)
    | bulkProof b =>
      simp only [react, pure_eq_ok] at hreact
      rw [← hreact]
      exact hview

end Shareholder

variable [DecidableEq F] [DecidableEq G] [Wire F] [Wire G] [Sampled F]

theorem History.finalOpens {s₀ s : Shareholder F G} {log : List Envelope} {out : List (Payload F G)} (h₀ : s₀.Fresh)
    (h : History s₀ log s out) : s.FinalOpens := by
  have hboth : s.Sound ∧ s.FinalOpens := by
    refine h.invariant (P := fun s => s.Sound ∧ s.FinalOpens) h₀.valid ⟨h₀.sound, fun pair hpair => ?_⟩ ?_ ?_
    · rw [h₀.finalShare] at hpair
      cases hpair
    · intro s _ hs
      refine ⟨hs.1.contribute, hs.2.of_settles ?_ (Shareholder.contribute_finalShare s) ?_⟩
      · exact Shareholder.index_eq_of_identity (Shareholder.contribute_identity s)
      · rw [Shareholder.contribute_view]
        exact .refl _
    · intro s e r hv hs hd
      exact ⟨hs.1.delivered hv hd, hs.2.delivered hv hs.1 hd⟩
  exact hboth.2

/-! ## what a team recovers -/

/-- a shareholder of a group with parameters `p` that has read a prefix of the log -/
def Reads (p : Params) (log : List Envelope) (s : Shareholder F G) : Prop :=
  ∃ (s₀ : Shareholder F G) (read : List Envelope) (out : List (Payload F G)),
    s₀.Fresh ∧ s₀.params = p ∧ read <+: log ∧ History s₀ read s out

/-- `k` shareholders of different indices, each with a final share -/
structure Team (p : Params) (log : List Envelope) (team : List (Shareholder F G)) (pairs : List (SharePair F)) :
    Prop where
  reads : ∀ s ∈ team, Reads p log s
  distinct : (team.map (·.index)).Nodup
  length_eq : team.length = p.k
  holds : team.map (·.finalShare) = pairs.map some

variable {p : Params} {log : List Envelope} {s : Shareholder F G} {team : List (Shareholder F G)}
  {pairs : List (SharePair F)}

theorem Reads.opens (h : Reads p log s) {pair : SharePair F} (hpair : s.finalShare = some pair) :
    pair.index = s.index ∧ s.index.toNat < p.n ∧ p.Admissible ∧ ∃ cs, s.view.qualCommitments? = some cs ∧
      (View.ofLog p log : View G).qualCommitments? = some cs ∧
      (pedersen pair.value pair.blinding : G) = (cs.map (·.eval (xCoordinate s.index : F))).sum := by
  obtain ⟨s₀, read, out, h₀, rfl, hread, hs⟩ := h
  have hvalid := hs.valid h₀.valid
  have hp := hs.params_eq h₀.valid
  obtain ⟨hown, cs, hcs, hsum⟩ := hs.finalOpens h₀ pair hpair
  have hsettles : View.Settles s.view (View.ofLog s₀.params log) := by
    rw [hs.view_eq_ofLog h₀]
    exact View.settles_ofLog s₀.params hread
  exact ⟨hown, hp ▸ hvalid.index_lt, hp ▸ hvalid.admissible, cs, hcs, hsettles.qualCommitments? hcs, hsum⟩

/-! ## teams -/

theorem Team.indices_eq (h : Team p log team pairs) : pairs.map (·.index) = team.map (·.index) := by
  have hsome : (pairs.map (·.index)).map some = (team.map (·.index)).map some := by
    have hmap := congrArg (List.map fun o : Option (SharePair F) => o.map (·.index)) h.holds
    rw [List.map_map, List.map_map] at hmap
    rw [List.map_map, List.map_map]
    refine hmap.symm.trans (List.map_congr_left fun s hs => ?_)
    obtain ⟨pair, -, hpair⟩ := List.mem_map.1 (h.holds ▸ List.mem_map_of_mem hs : s.finalShare ∈ pairs.map some)
    simp [← hpair, ((h.reads s hs).opens hpair.symm).1]
  exact List.map_injective_iff.2 (Option.some_injective _) hsome

/-- the pairs of a team all open one list of commitment vectors, each for its own index -/
theorem Team.opens (hp : p.Admissible) (h : Team p log team pairs) :
    ∃ cs, (View.ofLog p log : View G).qualCommitments? = some cs ∧ ∀ pair ∈ pairs, pair.index.toNat < p.n ∧
      (pedersen pair.value pair.blinding : G) = (Poly.sum cs).eval (xCoordinate pair.index : F) := by
  have hopens : ∀ pair ∈ pairs, pair.index.toNat < p.n ∧ ∃ cs, (View.ofLog p log : View G).qualCommitments? = some cs ∧
      (pedersen pair.value pair.blinding : G) = (Poly.sum cs).eval (xCoordinate pair.index : F) := by
    intro pair hpair
    obtain ⟨s, hs, hfinal⟩ := List.mem_map.1 (h.holds ▸ List.mem_map_of_mem hpair : some pair ∈ team.map _)
    obtain ⟨hown, hlt, -, cs, -, hcs, hsum⟩ := (h.reads s hs).opens hfinal
    rw [hown]
    exact ⟨hlt, cs, hcs, hsum.trans (Poly.eval_sum cs _).symm⟩
  have hcount : 0 < pairs.length := by
    have hlen := congrArg List.length h.holds
    rw [List.length_map, List.length_map, h.length_eq] at hlen
    rw [← hlen]
    exact Nat.zero_lt_of_lt hp.faults_lt
  obtain ⟨first, hfirst⟩ := List.exists_mem_of_length_pos hcount
  obtain ⟨-, cs, hcs, -⟩ := hopens first hfirst
  refine ⟨cs, hcs, fun pair hpair => ?_⟩
  obtain ⟨hlt, cs', hcs', hsum⟩ := hopens pair hpair
  obtain rfl : cs = cs' := Option.some.inj (hcs.symm.trans hcs')
  exact ⟨hlt, hsum⟩

/-- **A team opens the sum of the constant terms of QUAL.** -/
theorem Team.recovers (r : Nat) [CharP F r] (hr : p.n ≤ r) (hp : p.Admissible) (h : Team p log team pairs) :
    ∃ a b zs, recover F p.k (pairs.map SharePair.valueEval) = .ok a ∧
      recover F p.k (pairs.map SharePair.blindingEval) = .ok b ∧
      (View.ofLog p log : View G).qualConstants? = some zs ∧ (pedersen a b : G) = zs.sum := by
  obtain ⟨cs, hcs, hopens⟩ := h.opens hp
  have hlen : ∀ c ∈ cs, c.length = p.k := (View.valid_ofLog p log).length_of_qualCommitments? hcs
  obtain ⟨zs, hzs, hsum⟩ := exists_constants (F := F) (Nat.zero_lt_of_lt hp.faults_lt) hlen
  -- committing to the pairs gives points of the sum of the commitment vectors
  have hindices : ((pairs.map SharePair.eval).map (Eval.map (pedersenMap F G))).map (·.index) = team.map (·.index) := by
    rw [List.map_map, List.map_map, ← h.indices_eq]
    rfl
  have hcommitted : recover F p.k ((pairs.map SharePair.eval).map (Eval.map (pedersenMap F G))) = .ok zs.sum := by
    rw [← hsum]
    refine interpolate_eval (Poly.length_sum_le fun c hc => (hlen c hc).le) (fun e he => ?_) ?_ ?_ 0
    · obtain ⟨_, he', rfl⟩ := List.mem_map.1 he
      obtain ⟨pair, hpair, rfl⟩ := List.mem_map.1 he'
      exact (hopens pair hpair).2
    · refine (injOn_xCoordinate r hr).mono fun i hi => ?_
      rw [Set.mem_ofPred_eq, hindices, ← h.indices_eq] at hi
      obtain ⟨pair, hpair, rfl⟩ := List.mem_map.1 hi
      exact (hopens pair hpair).1
    · rw [hindices, List.toFinset_card_of_nodup h.distinct, List.length_map, h.length_eq]
  -- so the pairs themselves recover to a pair that is committed to by the sum of the constant terms
  rw [recover, interpolate_map] at hcommitted
  rcases hpairs : interpolate p.k (pairs.map SharePair.eval) (0 : F) with cause | ⟨a, b⟩
  · rw [hpairs] at hcommitted
    cases hcommitted
  · rw [hpairs] at hcommitted
    have hvalue := interpolate_map (LinearMap.fst F F F) p.k (pairs.map SharePair.eval) (0 : F)
    have hblinding := interpolate_map (LinearMap.snd F F F) p.k (pairs.map SharePair.eval) (0 : F)
    rw [hpairs, List.map_map] at hvalue hblinding
    refine ⟨a, b, zs, hvalue, hblinding, ?_, ?_⟩
    · rw [View.qualConstants?, hcs]
      exact hzs
    · exact Except.ok.inj hcommitted

/-- a cast that has come to rest has teams -/
theorem Cast.Ready.exists_team [LawfulWire F] [LawfulWire G] {C : Cast F G} (hC : C.Ready)
    (hinj : Set.InjOn (xCoordinate (F := F)) {i : Index | i.toNat < C.params.n}) :
    ∃ (log : List Envelope) (team : List (Shareholder F G)) (pairs : List (SharePair F)), Team C.params log team pairs := by
  obtain ⟨-, σ, -, -, -, hindices, -, hholds⟩ := hC.exists_rest hinj
  have hmem : ∀ t ∈ σ.readers.take C.params.k, t ∈ σ.readers := fun t ht => List.mem_of_mem_take ht
  have hlt : ∀ t ∈ σ.readers, (Session.index t).toNat < C.params.n := fun t ht =>
    Params.mem_dealers.1 (hindices ▸ List.mem_map_of_mem ht)
  obtain ⟨pairs, hpairs⟩ := View.exists_map_some (f := fun t : Reader F G => t.shareholder.finalShare)
    fun t ht => (hholds t (hmem t ht)).2.2.2
  refine ⟨σ.board.entries, (σ.readers.take C.params.k).map (·.shareholder), pairs, fun s hs => ?_, ?_, ?_, ?_⟩
  · obtain ⟨t, ht, rfl⟩ := List.mem_map.1 hs
    obtain ⟨⟨out, hhistory⟩, -⟩ := hholds t (hmem t ht)
    exact ⟨_, _, out, hC.fresh _ (hlt t (hmem t ht)), hC.params_eq (hlt t (hmem t ht)), List.prefix_refl _, hhistory⟩
  · have hnodup : (σ.readers.map Session.index).Nodup := hindices ▸ hC.indices
    rw [List.map_map]
    exact hnodup.sublist ((List.take_sublist _ _).map _)
  · have hlen := congrArg List.length hindices
    rw [List.length_map, Params.length_dealers] at hlen
    have := hC.admissible.bound
    rw [List.length_map, List.length_take]
    omega
  · rw [List.map_map]
    exact hpairs

/-- **Verifiability against any adversary.** For a log of any content: each final share opens the commitments of QUAL
evaluated for its holder; any `k` holders recover a pair that opens the sum of the constant terms of QUAL; and where two
such teams recover different secrets, these and their blindings give the logarithm of `h` to `g`. -/
theorem shares_verifiable (r : Nat) [CharP F r] (hr : p.n ≤ r) (hp : p.Admissible) (hg : (generator : G) ≠ 0)
    (log : List Envelope) :
    (∀ (s : Shareholder F G) (pair : SharePair F), Reads p log s → s.finalShare = some pair →
      pair.index = s.index ∧ ∃ cs, s.view.qualCommitments? = some cs ∧
        (View.ofLog p log : View G).qualCommitments? = some cs ∧
        (pedersen pair.value pair.blinding : G) = (cs.map (·.eval (xCoordinate s.index : F))).sum) ∧
    (∀ (team : List (Shareholder F G)) (pairs : List (SharePair F)), Team p log team pairs →
      ∃ a b zs, recover F p.k (pairs.map SharePair.valueEval) = .ok a ∧
        recover F p.k (pairs.map SharePair.blindingEval) = .ok b ∧
        (View.ofLog p log : View G).qualConstants? = some zs ∧ (pedersen a b : G) = zs.sum) ∧
    ∀ (team team' : List (Shareholder F G)) (pairs pairs' : List (SharePair F)) (a b a' b' : F),
      Team p log team pairs → Team p log team' pairs' →
      recover F p.k (pairs.map SharePair.valueEval) = .ok a →
      recover F p.k (pairs.map SharePair.blindingEval) = .ok b →
      recover F p.k (pairs'.map SharePair.valueEval) = .ok a' →
      recover F p.k (pairs'.map SharePair.blindingEval) = .ok b' →
      (pedersen a b : G) = pedersen a' b' ∧
        (a ≠ a' → b' ≠ b ∧ (blinding : G) = ((a - a') / (b' - b)) • (generator : G)) := by
  refine ⟨fun s pair hs hpair => ?_, fun team pairs h => h.recovers r hr hp, ?_⟩
  · obtain ⟨hown, -, -, hopens⟩ := hs.opens hpair
    exact ⟨hown, hopens⟩
  · intro team team' pairs pairs' a b a' b' h h' ha hb ha' hb'
    obtain ⟨_, _, zs, hrec, hrec', hzs, hopen⟩ := h.recovers r hr hp
    obtain rfl := Except.ok.inj (hrec.symm.trans ha)
    obtain rfl := Except.ok.inj (hrec'.symm.trans hb)
    obtain ⟨_, _, zs', hrec, hrec', hzs', hopen'⟩ := h'.recovers r hr hp
    obtain rfl := Except.ok.inj (hrec.symm.trans ha')
    obtain rfl := Except.ok.inj (hrec'.symm.trans hb')
    obtain rfl := Option.some.inj (hzs.symm.trans hzs')
    have hsame := hopen.trans hopen'.symm
    exact ⟨hsame, fun hne => logarithm_of_pedersen_eq hg hsame hne⟩

/-- two of five shareholders that have come to rest -/
theorem shares_verifiable_five : ∃ (log : List Envelope) (team : List (Shareholder (ZMod 11) (ZMod 11)))
    (pairs : List (SharePair (ZMod 11))) (a b : ZMod 11) (zs : List (ZMod 11)), team.length = 2 ∧
      team.map (·.finalShare) = pairs.map some ∧ recover (ZMod 11) 2 (pairs.map SharePair.valueEval) = .ok a ∧
      recover (ZMod 11) 2 (pairs.map SharePair.blindingEval) = .ok b ∧
      (View.ofLog ⟨5, 2, 1⟩ log : View (ZMod 11)).qualConstants? = some zs ∧ (pedersen a b : ZMod 11) = zs.sum := by
  have hg : (generator : ZMod 11) ≠ 0 := show (1 : ZMod 11) ≠ 0 from one_ne_zero
  obtain ⟨log, team, pairs, hteam⟩ := Cast.ready_five.exists_team (injOn_xCoordinate 11 Cast.n_five_le)
  obtain ⟨-, hopens, -⟩ := shares_verifiable 11 Cast.n_five_le Cast.ready_five.admissible hg log
  obtain ⟨a, b, zs, ha, hb, hzs, hopen⟩ := hopens team pairs hteam
  rw [Cast.params_five] at ha hb hzs
  exact ⟨log, team, pairs, a, b, zs, hteam.length_eq.trans (congrArg Params.k Cast.params_five), hteam.holds, ha, hb, hzs,
    hopen⟩

end DistributedKey
