/-
The tables that a shareholder keeps to itself, against its view of the log.

`Sound s` says that `s` has judged exactly the dealers whose contribution it has seen, that it holds a share of exactly
the dealers it judges a success, and that each share it holds is its own and opens the dealer's recorded commitments.
Shares come in two ways, from a contribution and from a rebuttal of the own complaint, and a rebuttal may overwrite what
a contribution brought: `Sound.delivered` covers both.
-/
import DistributedKey.Proofs.History

namespace DistributedKey

open Checked

variable {F G : Type}

namespace Shareholder

section

variable [Suite F G] [NatCast F] [Zero G] [Add G] [SMul F G] [DecidableEq G] {s : Shareholder F G}

structure Sound (s : Shareholder F G) : Prop where
  judged : ∀ d : Nat, (∃ st, s.ownStatuses[d]? = some (some st)) ↔ s.view.seen[d]? = some true
  success_iff : ∀ d : Nat, s.ownStatuses[d]? = some (some .success) ↔ ∃ pair, s.shares[d]? = some (some pair)
  opens : ∀ (d : Nat) (pair : SharePair F), s.shares[d]? = some (some pair) → pair.index = s.index ∧
    ∃ c, s.view.commitments[d]? = some (some c) ∧ View.shareCorrect pair s.index c = true

theorem Fresh.sound (h : s.Fresh) : s.Sound where
  judged d := by simp [h.ownStatuses, h.view, View.initial, List.getElem?_replicate]
  success_iff d := by simp [h.ownStatuses, h.shares, List.getElem?_replicate]
  opens d pair hd := by simp [h.shares, List.getElem?_replicate] at hd

/-- soundness looks at the index, the view and the two tables alone -/
theorem Sound.congr {t : Shareholder F G} (h : s.Sound) (hindex : t.index = s.index)
    (hseen : t.view.seen = s.view.seen) (hcommitments : t.view.commitments = s.view.commitments)
    (hown : t.ownStatuses = s.ownStatuses) (hshares : t.shares = s.shares) : t.Sound where
  judged d := by rw [hown, hseen]; exact h.judged d
  success_iff d := by rw [hown, hshares]; exact h.success_iff d
  opens d pair hd := by
    rw [hindex, hcommitments]
    rw [hshares] at hd
    exact h.opens d pair hd

/-- and is kept where one entry of the tables changes, to a share that opens the commitments and a success, or to a
complaint where there is no share -/
theorem Sound.of_entry {t : Shareholder F G} {d : Nat} (h : s.Sound) (hindex : t.index = s.index)
    (hothers : ∀ e : Nat, e ≠ d → t.ownStatuses[e]? = s.ownStatuses[e]? ∧ t.shares[e]? = s.shares[e]? ∧
      t.view.seen[e]? = s.view.seen[e]? ∧
        ∀ c : Poly G, s.view.commitments[e]? = some (some c) → t.view.commitments[e]? = some (some c))
    (hseen : t.view.seen[d]? = some true)
    (hentry : (t.ownStatuses[d]? = some (some .complaint) ∧ ∀ pair, t.shares[d]? ≠ some (some pair)) ∨
      t.ownStatuses[d]? = some (some .success) ∧ ∃ pair c, t.shares[d]? = some (some pair) ∧ pair.index = s.index ∧
        t.view.commitments[d]? = some (some c) ∧ View.shareCorrect pair s.index c = true) : t.Sound where
  judged e := by
    by_cases he : e = d
    · subst he
      rcases hentry with ⟨hown, -⟩ | ⟨hown, -⟩
      · exact ⟨fun _ => hseen, fun _ => ⟨_, hown⟩⟩
      · exact ⟨fun _ => hseen, fun _ => ⟨_, hown⟩⟩
    · obtain ⟨hown, -, hseen, -⟩ := hothers e he
      rw [hown, hseen]
      exact h.judged e
  success_iff e := by
    by_cases he : e = d
    · subst he
      rcases hentry with ⟨hown, hnone⟩ | ⟨hown, pair, -, hshare, -⟩
      · rw [hown]
        exact ⟨(fun heq => by simp at heq), fun ⟨pair, hshare⟩ => absurd hshare (hnone pair)⟩
      · exact ⟨fun _ => ⟨pair, hshare⟩, fun _ => hown⟩
    · obtain ⟨hown, hshares, -⟩ := hothers e he
      rw [hown, hshares]
      exact h.success_iff e
  opens e pair hpair := by
    rw [hindex]
    by_cases he : e = d
    · subst he
      rcases hentry with ⟨-, hnone⟩ | ⟨-, pair', c, hshare, hown, hc, hcorrect⟩
      · exact absurd hpair (hnone pair)
      · obtain rfl : pair' = pair := by simpa using hshare.symm.trans hpair
        exact ⟨hown, c, hc, hcorrect⟩
    · obtain ⟨-, hshares, -, hkept⟩ := hothers e he
      obtain ⟨hown, c, hc, hcorrect⟩ := h.opens e pair (hshares ▸ hpair)
      exact ⟨hown, c, hkept c hc, hcorrect⟩

variable {d : Index} {c : Contribution G} {view : View G} {r : Response F G}

/-- the share that a rebuttal of the own complaint reveals takes the place of whatever was there -/
theorem Sound.adopt (hv : s.Valid) (h : s.Sound) {b : Rebuttal F} (hd : d.toNat < s.params.n)
    (hindex : b.share.index = b.accuser) {c : Poly G} (hc : s.view.commitments[d.toNat]? = some (some c))
    (hcorrect : View.shareCorrect b.share b.accuser c = true) : (s.adopt d b).Sound := by
  unfold Shareholder.adopt
  split_ifs with hown
  · have hdown : d.toNat < s.ownStatuses.length := hv.ownStatuses_length ▸ hd
    have hdshares : d.toNat < s.shares.length := hv.shares_length ▸ hd
    exact h.of_entry rfl (fun e he => ⟨List.getElem?_set_ne he.symm, List.getElem?_set_ne he.symm, rfl, fun _ => id⟩)
      (hv.view.committed d.toNat c hc).1
      (Or.inr ⟨List.getElem?_set_self hdown, b.share, c, List.getElem?_set_self hdshares, hindex.trans hown, hc,
        hown ▸ hcorrect⟩)
  · exact h

/-- a contribution that is taken in is the first of its dealer -/
theorem Sound.unjudged (hv : s.Valid) (h : s.Sound) (htake : s.view.takeContribution s.params d c = .ok view) :
    ¬ ∃ st, s.ownStatuses[d.toNat]? = some (some st) := by
  intro hjudged
  rw [View.takeContribution_eq_ok hv.view.commitments_eq_seen, (h.judged _).1 hjudged] at htake
  cases htake.1

/-! ## contributions -/

variable [Wire F] [Wire G]

/-- the share that is taken from a contribution is the own one and opens its commitments, which are proper -/
theorem judge_eq_ok {c : Contribution G} {pair : SharePair F} (h : s.judge c = .ok pair) :
    s.openShare c.shares = .ok pair ∧ View.checkCommitments s.params.k c.commitments = .ok () ∧
      pair.index = s.index ∧ View.shareCorrect pair s.index c.commitments = true := by
  unfold judge at h
  rcases hopen : s.openShare c.shares with cause | pair'
  · rw [hopen] at h
    cases h
  · rcases hcheck : View.checkCommitments s.params.k c.commitments with cause | u
    · rw [hopen, hcheck] at h
      cases h
    · rw [hopen, hcheck] at h
      simp only [bind, Except.bind] at h
      split_ifs at h with hindex hcorrect
      obtain rfl : pair' = pair := Except.ok.inj h
      exact ⟨rfl, rfl, not_not.1 hindex, hcorrect⟩

/-- a dealer seen for the first time: a share and a success, or no share and a complaint -/
theorem Sound.onContribution (hv : s.Valid) (h : s.Sound) (hview : s.view.takeContribution s.params d c = .ok view)
    (hreact : Shareholder.onContribution { s with view } d c = .ok r) : r.shareholder.Sound := by
  have hunjudged := h.unjudged hv hview
  rw [View.takeContribution_eq_ok hv.view.commitments_eq_seen] at hview
  obtain ⟨hseen, rfl⟩ := hview
  have hd : d.toNat < s.params.n := hv.view.seen_length ▸ (List.getElem?_eq_some_iff.1 hseen).1
  have hseen' : (s.view.seen.set d.toNat true)[d.toNat]? = some true :=
    List.getElem?_set_self (hv.view.seen_length.symm ▸ hd)
  have hothers : ∀ e : Nat, e ≠ d.toNat → ∀ c' : Poly G, s.view.commitments[e]? = some (some c') →
      (View.keepCommitments s.params.k c.commitments d.toNat s.view.commitments)[e]? = some (some c') := by
    intro e he c' hc'
    unfold View.keepCommitments
    split
    · rwa [List.getElem?_set_ne he.symm]
    · exact hc'
  obtain ⟨hdown, ⟨cause, -, rfl⟩ | ⟨pair, s₁, out, hjudge, hdshares, hannounce, rfl⟩⟩ := onContribution_cases hreact
  · refine h.of_entry rfl (fun e he => ⟨List.getElem?_set_ne he.symm, rfl, List.getElem?_set_ne he.symm, hothers e he⟩)
      hseen' (Or.inl ⟨List.getElem?_set_self hdown, fun pair hpair => hunjudged ?_⟩)
    exact ⟨_, (h.success_iff d.toNat).2 ⟨pair, hpair⟩⟩
  · dsimp only
    rw [announce_frame hannounce]
    obtain ⟨-, hcheck, hindex, hcorrect⟩ := judge_eq_ok hjudge
    have hcheck : View.checkCommitments s.params.k c.commitments = .ok () := hcheck
    have hkept : (View.keepCommitments s.params.k c.commitments d.toNat s.view.commitments)[d.toNat]? =
        some (some c.commitments) := by
      rw [View.keepCommitments, hcheck]
      exact List.getElem?_set_self (hv.view.commitments_length.symm ▸ hd)
    exact h.of_entry rfl
      (fun e he =>
        ⟨List.getElem?_set_ne he.symm, List.getElem?_set_ne he.symm, List.getElem?_set_ne he.symm, hothers e he⟩)
      hseen' (Or.inr ⟨List.getElem?_set_self hdown, pair, c.commitments, List.getElem?_set_self hdshares, hindex, hkept,
        hcorrect⟩)

end

/-! ## rebuttals -/

section

variable [Suite F G] [NatCast F] [Zero F] [One F] [Sub F] [Mul F] [Inv F] [Zero G] [Add G] [SMul F G] [Wire G]
  [DecidableEq F] [DecidableEq G] {s : Shareholder F G} {d : Index} {view : View G}

/-- the tables after the view has taken in anything but a contribution -/
theorem Sound.withView (hv : s.Valid) (h : s.Sound) {payload : Payload F G} {notices : List Notice}
    (hstep : s.view.step s.params d payload = .ok (view, notices)) (hne : ∀ c, payload ≠ .contribution c) :
    Sound { s with view } := by
  obtain ⟨hseen, hcommitments⟩ := View.step_frame hv.view hstep hne
  exact h.congr rfl hseen hcommitments rfl rfl

/-- a rebuttal that the view has taken in opens the commitments of its sender -/
theorem Sound.adopt_taken (hv : s.Valid) (h : s.Sound) {b : Rebuttal F} {notices : List Notice}
    (hstep : s.view.step s.params d (.rebuttal b) = .ok (view, notices)) :
    (Shareholder.adopt { s with view } d b).Sound := by
  have hvalid := hv.withView (View.valid_step hv.view hstep)
  have hsound := h.withView hv hstep (by simp)
  obtain ⟨-, hcommitments⟩ := View.step_frame hv.view hstep (by simp)
  obtain ⟨hw, -⟩ := View.step_rebuttal_eq_ok.1 hstep
  obtain ⟨-, -, ⟨c, hc, hcorrect⟩, hindex, -⟩ := View.takeRebuttal_eq_ok.1 hw
  have hd : d.toNat < s.params.n := hv.view.commitments_length ▸ (List.getElem?_eq_some_iff.1 hc).1
  exact hsound.adopt hvalid hd hindex (hcommitments ▸ hc) hcorrect

end

/-! ## every delivery -/

variable [Suite F G] [NatCast F] [Zero F] [One F] [Add F] [Sub F] [Mul F] [Inv F] [SMul F F] [Zero G] [Add G]
  [SMul F G] [Wire F] [Wire G] [Sampled F] [DecidableEq F] [DecidableEq G]
  {s : Shareholder F G} {e : Envelope} {r : Response F G} {d : Index}

omit [One F] [Inv F] [SMul F F] [Wire F] [DecidableEq F] in
theorem Sound.onQual (h : s.Sound) {before : View G} {s' : Shareholder F G} {out : List (Payload F G)}
    (hok : s.onQual before = .ok (s', out)) : s'.Sound := by
  rw [onQual_frame hok]
  exact h.congr rfl rfl rfl rfl rfl

theorem Sound.delivered (hv : s.Valid) (h : s.Sound) (hd : Delivered s e r) : r.shareholder.Sound := by
  cases hd with
  | refused cause hno => exact h.congr rfl rfl rfl rfl rfl
  | @accepted payload view notices r hpayload hsender hstep hreact =>
    change r.shareholder.Sound
    cases payload with
    | contribution c =>
      obtain ⟨hw, -⟩ := View.step_contribution_eq_ok.1 hstep
      exact h.onContribution hv hw hreact
    | rebuttal b =>
      rw [onRebuttal_frame hreact]
      exact (h.adopt_taken hv hstep).congr rfl rfl rfl rfl rfl
    | verification statuses =>
      rw [onVerification_frame hreact]
      exact (h.withView hv hstep (by simp)).congr rfl rfl rfl rfl rfl
    | proof π =>
      rw [onProof_frame hreact]
      exact (h.withView hv hstep (by simp)).congr rfl rfl rfl rfl rfl
    | bulkProof b =>
      simp only [react, pure_eq_ok] at hreact
      rw [← hreact]
      exact h.withView hv hstep (by simp)

/-- a dealer once judged a success stays one -/
theorem success_persists (hv : s.Valid) (h : s.Sound) (hd : Delivered s e r) {d : Nat}
    (hsuccess : s.ownStatuses[d]? = some (some .success)) :
    r.shareholder.ownStatuses[d]? = some (some .success) := by
  rcases hd.tables_cases with ⟨hsame, -⟩ | ⟨c, view, -, htake, hjudged⟩ | ⟨b, view, -, -, -, hset, -⟩
  · rw [hsame, hsuccess]
  · -- the contribution is the first of its dealer, and this one was judged before
    have hne : e.sender.toNat ≠ d := by
      rintro rfl
      exact h.unjudged hv htake ⟨_, hsuccess⟩
    rcases hjudged with ⟨cause, -, hset, -⟩ | ⟨pair, -, hset, -⟩
    · rw [hset, List.getElem?_set_ne hne, hsuccess]
    · rw [hset, List.getElem?_set_ne hne, hsuccess]
  · rw [hset, List.getElem?_set]
    split_ifs with heq hlt
    · rfl
    · exact absurd (heq ▸ (List.getElem?_eq_some_iff.1 hsuccess).1) hlt
    · exact hsuccess

omit [One F] [Sub F] [Mul F] [Inv F] [DecidableEq F] in
theorem Sound.contribute (h : s.Sound) : s.contribute.2.Sound :=
  h.congr (index_eq_of_identity (contribute_identity s)) (by rw [contribute_view]) (by rw [contribute_view])
    (contribute_ownStatuses s) (contribute_shares s)

end Shareholder

variable [Suite F G] [NatCast F] [Zero F] [One F] [Add F] [Sub F] [Mul F] [Inv F] [SMul F F] [Zero G] [Add G]
  [SMul F G] [Wire F] [Wire G] [Sampled F] [DecidableEq F] [DecidableEq G]

/-- **The tables are sound in every state that a log can lead to.** -/
theorem History.sound {s₀ s : Shareholder F G} {log : List Envelope} {out : List (Payload F G)} (h₀ : s₀.Fresh)
    (h : History s₀ log s out) : s.Sound :=
  h.invariant h₀.valid h₀.sound (fun _ _ hs => hs.contribute) fun _ _ _ hv hs hd => hs.delivered hv hd

end DistributedKey
