/-
The final share is not forgotten: it is there as soon as QUAL is frozen and a share of every member has come in.

The final share is tried when QUAL is frozen and after every rebuttal, but not after a contribution. No contribution can
complete the shares, though. A dealer gets into QUAL by more than `k + f` votes, so by the vote of a shareholder that
follows the protocol, which has judged the dealer's contribution, and so everybody who reads as much has seen it.

- `sumShares_isSome`: a sum comes out exactly if all shares are there.
- `Prompt`: the final share is there exactly if it can be summed up. `Prompt.delivered`: a delivery keeps this, as long
  as the members of QUAL have been seen.
- `Authentic.qual_seen`: on an authentic log they have.
- `finalShare_prompt`: hence every shareholder that follows the protocol is prompt at all times.
-/
import DistributedKey.Proofs.Recoverability

namespace DistributedKey

open Checked

variable {F G : Type}

namespace Shareholder

/-- QUAL is frozen, and a share of each of its members is there -/
def Covered (s : Shareholder F G) : Prop :=
  ∃ q, s.view.qual = some q ∧ ∀ d ∈ q, ∃ pair, s.shares[d.toNat]? = some (some pair)

/-- a final share is there for a frozen QUAL only, all of whose shares are there -/
def Backed (s : Shareholder F G) : Prop := s.finalShare.isSome → s.Covered

/-- and is there as soon as they are -/
def Prompt (s : Shareholder F G) : Prop := s.finalShare.isSome ↔ s.Covered

variable {s t : Shareholder F G}

theorem Prompt.backed (h : s.Prompt) : s.Backed := h.1

/-- a covered shareholder stays covered if QUAL is kept and no share is lost -/
theorem Covered.mono (h : s.Covered) (hqual : ∀ q, s.view.qual = some q → t.view.qual = some q)
    (hshares : ∀ (d : Nat) (pair : SharePair F), s.shares[d]? = some (some pair) →
      ∃ pair', t.shares[d]? = some (some pair')) : t.Covered := by
  obtain ⟨q, hq, hall⟩ := h
  refine ⟨q, hqual q hq, fun d hd => ?_⟩
  obtain ⟨pair, hpair⟩ := hall d hd
  exact hshares _ pair hpair

/-- a share that is taken over replaces one or fills a gap -/
theorem Covered.adopt (h : s.Covered) (d : Index) (b : Rebuttal F) : (s.adopt d b).Covered := by
  unfold Shareholder.adopt
  split_ifs
  · refine h.mono (fun _ => id) fun i pair hpair => ?_
    dsimp only
    rw [List.getElem?_set]
    split_ifs with hi hlt
    · exact ⟨_, rfl⟩
    · exact absurd (hi ▸ (List.getElem?_eq_some_iff.1 hpair).1) hlt
    · exact ⟨pair, hpair⟩
  · exact h

/-- promptness looks at QUAL, the shares of its members and the final share alone -/
theorem Prompt.congr (h : s.Prompt) (hqual : t.view.qual = s.view.qual)
    (hshares : ∀ q, s.view.qual = some q → ∀ d ∈ q, t.shares[d.toNat]? = s.shares[d.toNat]?)
    (hfinal : t.finalShare = s.finalShare) : t.Prompt := by
  have hcovered : t.Covered ↔ s.Covered := by
    unfold Covered
    rw [hqual]
    constructor
    · rintro ⟨q, hq, hall⟩
      exact ⟨q, hq, fun d hd => hshares q hq d hd ▸ hall d hd⟩
    · rintro ⟨q, hq, hall⟩
      exact ⟨q, hq, fun d hd => (hshares q hq d hd).symm ▸ hall d hd⟩
  rw [Prompt, hfinal, hcovered]
  exact h

/-! ## trying -/

theorem sumShares_isSome [Add F] {shares : List (Option (SharePair F))} {l : List Index} {a b : F}
    {sum : Option (F × F)} (h : sumShares shares l a b = .ok sum) :
    sum.isSome ↔ ∀ d ∈ l, ∃ pair, shares[d.toNat]? = some (some pair) := by
  induction l generalizing a b with
  | nil =>
    simp only [sumShares, pure_eq_ok] at h
    simp [← h]
  | cons d l ih =>
    simp only [sumShares, bind_eq_ok, entry_eq_ok] at h
    obtain ⟨_ | pair, hpair, h⟩ := h
    · simp only [pure_eq_ok] at h
      simp [← h, hpair]
    · rw [ih h, List.forall_mem_cons]
      exact ⟨fun hall => ⟨⟨pair, hpair⟩, hall⟩, fun hall => hall.2⟩

section

variable [Zero F] [Add F] {s' : Shareholder F G} {before : View G} {out : List (Payload F G)}

/-- whoever tries is prompt -/
theorem Backed.tryFinalShare (h : s.Backed) (hok : s.tryFinalShare = .ok s') : s'.Prompt := by
  rcases tryFinalShare_cases hok with ⟨rfl, hnone⟩ | ⟨q, value, blinding, -, hq, hsum, rfl⟩
  · refine ⟨h, fun hcovered => ?_⟩
    obtain ⟨q, hq, hall⟩ := hcovered
    by_contra hmissing
    have hsum := hnone (Option.not_isSome_iff_eq_none.1 hmissing) q hq
    cases (sumShares_isSome hsum).2 hall
  · exact ⟨fun _ => ⟨q, hq, (sumShares_isSome hsum).1 rfl⟩, fun _ => rfl⟩

variable [Suite F G] [Sub F] [Mul F] [SMul F G] [Wire G] [Sampled F]

theorem Backed.onQual (h : s.Backed) (hok : s.onQual before = .ok (s', out)) : s'.Backed :=
  onQual_keeps h (fun _ hfinal => (h.tryFinalShare hfinal).backed) (fun _ _ => id) hok

/-- it is tried when QUAL is frozen, so who was prompt with QUAL frozen before is prompt -/
theorem Backed.prompt_onQual (h : s.Backed) (hfrozen : before.qual.isSome → s.Prompt)
    (hok : s.onQual before = .ok (s', out)) : s'.Prompt := by
  rcases onQual_cases hok with ⟨hbefore | hnone, rfl, -⟩ |
    ⟨q, s₁, -, -, hfinal, ⟨-, rfl, -⟩ | ⟨-, a, b, -, -, rfl, -⟩⟩
  · exact hfrozen hbefore
  · refine ⟨h, fun hcovered => ?_⟩
    obtain ⟨q, hq, -⟩ := hcovered
    rw [hnone] at hq
    cases hq
  · exact h.tryFinalShare hfinal
  · exact (h.tryFinalShare hfinal).congr rfl (fun _ _ _ _ => rfl) rfl

end

/-! ## every delivery -/

section

variable [Suite F G] [NatCast F] [Zero F] [One F] [Add F] [Sub F] [Mul F] [Inv F] [SMul F F] [Zero G] [Add G]
  [SMul F G] [Wire F] [Wire G] [Sampled F] [DecidableEq F] [DecidableEq G]
  {e : Envelope} {r : Response F G}

/-- **A prompt shareholder stays prompt** whatever it is sent, as long as it has seen the members of QUAL. -/
theorem Prompt.delivered (hv : s.Valid) (h : s.Prompt)
    (hseen : ∀ q, s.view.qual = some q → ∀ d ∈ q, s.view.seen[d.toNat]? = some true) (hd : Delivered s e r) :
    r.shareholder.Prompt := by
  cases hd with
  | refused cause hno => exact h.congr rfl (fun _ _ _ _ => rfl) rfl
  | @accepted payload view notices r hpayload hsender hstep hreact =>
    have hsettles : View.Settles s.view view := View.settles_step hv.view hstep
    have hbacked : Backed { s with view } := fun hfinal => by
      have hcovered : s.Covered := h.1 hfinal
      exact hcovered.mono hsettles.qual fun _ pair hpair => ⟨pair, hpair⟩
    have hqual : payload.opcode ≠ .verification → payload.opcode ≠ .rebuttal → view.qual = s.view.qual :=
      View.step_qual_frame hv.view hstep
    change r.shareholder.Prompt
    cases payload with
    | contribution c =>
      -- the dealer is seen for the first time, so it is not in QUAL
      have htake := (View.step_contribution_eq_ok.1 hstep).1
      rw [View.takeContribution_eq_ok hv.view.commitments_eq_seen] at htake
      have hne : ∀ q, s.view.qual = some q → ∀ d ∈ q, e.sender.toNat ≠ d.toNat := by
        intro q hq d hd heq
        have hsame := (heq ▸ htake.1).symm.trans (hseen q hq d hd)
        cases hsame
      have hview := react_view hreact
      refine h.congr (by rw [hview]; exact hqual (by simp [Payload.opcode]) (by simp [Payload.opcode])) ?_ ?_
      · intro q hq d hd
        obtain ⟨-, ⟨cause, -, rfl⟩ | ⟨pair, s₁, out, -, -, hannounce, rfl⟩⟩ := onContribution_cases hreact
        · rfl
        · rw [announce_frame hannounce]
          exact List.getElem?_set_ne (hne q hq d hd)
      · rw [onContribution_frame hreact]
    | verification statuses =>
      obtain ⟨own, s₁, out, -, hok, rfl⟩ := onVerification_cases hreact
      refine hbacked.prompt_onQual (fun hfrozen => ?_) hok
      obtain ⟨q, hq⟩ := Option.isSome_iff_exists.1 hfrozen
      exact h.congr ((hsettles.qual q hq).trans hq.symm) (fun _ _ _ _ => rfl) rfl
    | rebuttal b =>
      obtain ⟨s₁, s₂, out, hok, hfinal, rfl, -⟩ := onRebuttal_cases hreact
      have hadopt : (Shareholder.adopt { s with view } e.sender b).Backed := fun hsome => by
        refine Covered.adopt (hbacked ?_) e.sender b
        unfold Shareholder.adopt at hsome
        split_ifs at hsome <;> exact hsome
      exact (hadopt.onQual hok).tryFinalShare hfinal
    | proof π =>
      rw [onProof_frame hreact]
      exact h.congr (hqual (by simp [Payload.opcode]) (by simp [Payload.opcode])) (fun _ _ _ _ => rfl) rfl
    | bulkProof b =>
      simp only [react, pure_eq_ok] at hreact
      rw [← hreact]
      exact h.congr (hqual (by simp [Payload.opcode]) (by simp [Payload.opcode])) (fun _ _ _ _ => rfl) rfl

end

end Shareholder

/-! ## on an authentic log -/

section

variable [Suite F G] [SMul F G] [Zero G] [DecidableEq G] {p : Params} {members : List (Shareholder F G)}
  {s₀ : Shareholder F G}

/-- among the votes for a member of QUAL is one of a shareholder that follows the protocol -/
theorem exists_voter (hmembers : ∀ s₀ ∈ members, s₀.Fresh ∧ s₀.params = p) (hdistinct : (members.map (·.index)).Nodup)
    (hfaults : p.n ≤ members.length + p.f) {v : View G} (hv : v.Valid p) {q : IndexSet} (hq : v.qual = some q)
    {d : Index} (hd : d ∈ q) : ∃ s₀ ∈ members, v.verdicts.cell s₀.index.toNat d.toNat = some .success := by
  obtain ⟨-, hvotes⟩ := hv.qual_endorsed hq hd
  have hvoters : ∀ j ∈ v.verdicts.endorsers d.toNat, j < p.n := by
    intro j hj
    rw [← hv.rows_length]
    exact Finset.mem_range.1 (Finset.mem_filter.1 hj).1
  have hlt : ∀ i ∈ members.map (·.index), i.toNat < p.n := by
    intro i hi
    obtain ⟨s₀, hs₀, rfl⟩ := List.mem_map.1 hi
    exact (hmembers s₀ hs₀).2 ▸ (hmembers s₀ hs₀).1.valid.index_lt
  have hcount := le_length_filter_voters hdistinct hlt (by rwa [List.length_map]) hvoters (Nat.succ_le_of_lt hvotes)
  obtain ⟨i, hi⟩ := List.exists_mem_of_length_pos
    (l := (members.map (·.index)).filter (·.toNat ∈ v.verdicts.endorsers d.toNat)) (by omega)
  obtain ⟨hi, hvote⟩ := List.mem_filter.1 hi
  obtain ⟨s₀, hs₀, rfl⟩ := List.mem_map.1 hi
  exact ⟨s₀, hs₀, StatusMatrix.mem_endorsers.1 (by simpa using hvote)⟩

/-- the indices of distinct shareholders are words, so few can be missing -/
theorem size_lt_of_distinct (hmembers : ∀ s₀ ∈ members, s₀.Fresh ∧ s₀.params = p)
    (hdistinct : (members.map (·.index)).Nodup) (hfaults : p.n ≤ members.length + p.f) (hs₀ : s₀ ∈ members) :
    p.n < 2 ^ 64 := by
  have hadmissible : p.Admissible := (hmembers s₀ hs₀).2 ▸ (hmembers s₀ hs₀).1.valid.admissible
  have hsize := IndexSet.length_le_of_nodup hdistinct
  rw [List.length_map] at hsize
  have hsize : members.length ≤ 2 ^ 32 := hsize
  have h1 := hadmissible.faults_lt
  have h2 := hadmissible.bound
  omega

end

variable [Suite F G] [NatCast F] [Zero F] [One F] [Add F] [Sub F] [Mul F] [Inv F] [SMul F F] [Zero G] [Add G]
  [SMul F G] [Wire F] [Wire G] [Sampled F] [DecidableEq F] [DecidableEq G]
  {p : Params} {members : List (Shareholder F G)} {log read : List Envelope} {s₀ s : Shareholder F G}
  {out : List (Payload F G)}

/-- **The contributions of QUAL stand before the votes that freeze it**, so who knows QUAL has seen them. -/
theorem Authentic.qual_seen (hlog : Authentic members log) (hmembers : ∀ s₀ ∈ members, s₀.Fresh ∧ s₀.params = p)
    (hdistinct : (members.map (·.index)).Nodup) (hfaults : p.n ≤ members.length + p.f) (hn : p.n < 2 ^ 64)
    (hread : read <+: log) {q : IndexSet} (hq : (View.ofLog p read : View G).qual = some q) {d : Index} (hd : d ∈ q) :
    (View.ofLog p read : View G).seen[d.toNat]? = some true := by
  obtain ⟨r₀, hr₀, hvote⟩ := exists_voter hmembers hdistinct hfaults (View.valid_ofLog p read) hq hd
  obtain ⟨hfresh, hparams⟩ := hmembers r₀ hr₀
  obtain ⟨r, out, hr⟩ := History.exists_of_log hfresh.valid read
  have hview : r.view = View.ofLog p read := hparams ▸ hr.view_eq_ofLog hfresh
  have hsuccess := hr.holds_of_vote hlog hr₀ hfresh (hparams ▸ hn) hread (hview ▸ hvote)
  rw [← hview]
  exact ((hr.sound hfresh).judged d.toNat).1 ⟨_, hsuccess⟩

/-- **Deferred final shares are never forgotten.** Whatever at most `f` shareholders post on an authentic log, each of the
others has, however much it has read, its final share exactly if QUAL is frozen and it holds a share of every member. -/
theorem finalShare_prompt (hmembers : ∀ s₀ ∈ members, s₀.Fresh ∧ s₀.params = p)
    (hdistinct : (members.map (·.index)).Nodup) (hfaults : p.n ≤ members.length + p.f) (hlog : Authentic members log)
    (hs₀ : s₀ ∈ members) (hread : read <+: log) (hs : History s₀ read s out) :
    s.finalShare.isSome ↔
      ∃ q, s.view.qual = some q ∧ ∀ d ∈ q, ∃ pair, s.shares[d.toNat]? = some (some pair) := by
  have hn := size_lt_of_distinct hmembers hdistinct hfaults hs₀
  obtain ⟨hfresh, hparams⟩ := hmembers s₀ hs₀
  change s.Prompt
  induction hs with
  | start =>
    constructor
    · intro hfinal
      rw [hfresh.finalShare] at hfinal
      cases hfinal
    · rintro ⟨q, hq, -⟩
      rw [hfresh.view] at hq
      cases hq
  | deal hs ih =>
    refine (ih hread).congr ?_ ?_ (Shareholder.contribute_finalShare _)
    · rw [Shareholder.contribute_view]
    · rw [Shareholder.contribute_shares]
      exact fun _ _ _ _ => rfl
  | @read seen s out e r hs hr ih =>
    have hseen : seen <+: log := (List.prefix_append seen [e]).trans hread
    have hvalid := hs.valid hfresh.valid
    refine (ih hseen).delivered hvalid (fun q hq d hd => ?_) (hvalid.delivered_of_deliver hr)
    rw [hs.view_eq_ofLog hfresh, hparams] at hq ⊢
    exact hlog.qual_seen hmembers hdistinct hfaults hn hseen hq hd

/-- five shareholders that have come to rest: one holds its final share, and a share of every member of QUAL -/
theorem finalShare_prompt_five : ∃ (log : List Envelope) (s : Shareholder (ZMod 11) (ZMod 11))
    (out : List (Payload (ZMod 11) (ZMod 11))) (q : IndexSet), History (Cast.five.start 1) log s out ∧
      s.finalShare.isSome ∧ s.view.qual = some q ∧ ∀ d ∈ q, ∃ pair, s.shares[d.toNat]? = some (some pair) := by
  obtain ⟨posts, s, out, -, hauthentic, hhistory, -, -, hfinal⟩ := Cast.five_at_rest
  have hC := Cast.ready_five
  have hmem : Cast.five.start 1 ∈ Cast.five.params.dealers.map Cast.five.start :=
    List.mem_map_of_mem (Params.mem_dealers.2 Cast.one_lt_five)
  obtain ⟨q, hq, hall⟩ := (finalShare_prompt hC.fresh_members (hC.indices_members.symm ▸ hC.indices)
    (by rw [List.length_map, Params.length_dealers]; omega) hauthentic hmem (List.prefix_refl _) hhistory).1 hfinal
  exact ⟨posts.map Post.seal, s, out, q, hhistory, hfinal, hq, hall⟩

end DistributedKey
