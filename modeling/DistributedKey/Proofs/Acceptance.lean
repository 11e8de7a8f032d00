/-
What every shareholder makes of a dealer's first contribution: it is accepted if the dealer is honest, and if the dealer
omits the blinding it is accepted exactly where the blinding is zero.

The contribution goes through sampling, sealing, the log, opening and the two checks. The pair that comes out at the far
end is the one that was dealt (`judge_dealt`), so what is left to ask is whether the commitments are proper points and
whether they open to it.

- `Introduces.accepted`, `Introduces.accused`: what a first contribution does, whoever sends it.
- `deliver_dealt`: what the contribution of a dealer of the same group does.
- `dealing_judged`: the two kinds of dealer.
-/
import DistributedKey.Proofs.Dealing
import DistributedKey.Proofs.Rejection
import DistributedKey.Proofs.ShareTable

namespace DistributedKey

open Checked

variable {F G : Type}

namespace Shareholder

/-! ## first contributions -/

section

variable {s : Shareholder F G} {e : Envelope} {r : Response F G} {c : Contribution G} {pair : SharePair F}
  {cause : Violation}

/-- the share of this dealer is accepted, and nothing said about it -/
structure Accepted (s : Shareholder F G) (d : Index) (pair : SharePair F) (r : Response F G) : Prop where
  alerts : r.shareholder.alerts = s.alerts
  statuses : r.shareholder.ownStatuses = s.ownStatuses.set d.toNat (some .success)
  shares : r.shareholder.shares = s.shares.set d.toNat (some pair)
  status : r.shareholder.ownStatuses[d.toNat]? = some (some .success)
  share : r.shareholder.shares[d.toNat]? = some (some pair)

/-- the dealer is complained about, and an alert raised on this condition -/
structure Accused (s : Shareholder F G) (d : Index) (condition : Condition) (r : Response F G) : Prop where
  alerts : r.shareholder.alerts = s.alerts ++ [⟨s.index, d, condition⟩]
  statuses : r.shareholder.ownStatuses = s.ownStatuses.set d.toNat (some .complaint)
  shares : r.shareholder.shares = s.shares
  status : r.shareholder.ownStatuses[d.toNat]? = some (some .complaint)

theorem Accused.not_accepted {condition : Condition} {d : Index} (h : s.Accused d condition r) : ¬ s.Accepted d pair r := by
  intro haccepted
  have hstatus := haccepted.status
  rw [h.status] at hstatus
  cases hstatus

variable [Suite F G] [NatCast F] [Zero F] [One F] [Add F] [Sub F] [Mul F] [Inv F] [SMul F F] [Zero G] [Add G]
  [SMul F G] [Wire F] [Wire G] [Sampled F] [DecidableEq F] [DecidableEq G]

omit [Add F] [SMul F F] [Sampled F] in
/-- the verdict on a first contribution is that on its share -/
theorem Introduces.violation?_eq (hc : s.Introduces e c) (hv : s.Valid) :
    s.violation? e = s.flaw? (.contribution c) := by
  obtain ⟨hpayload, hlt, hseen⟩ := hc
  rw [violation?, hv.view.refusal?_of_unseen hv.admissible hpayload hlt hseen]
  simp only [hpayload]

theorem Introduces.accepted (hc : s.Introduces e c) (hv : s.Valid) (hr : s.deliver e = some r)
    (hjudge : s.judge c = .ok pair) : s.Accepted e.sender pair r := by
  obtain ⟨hpayload, hlt, hseen⟩ := hc
  have htaken := hv.view.refusal?_of_unseen hv.admissible hpayload hlt hseen
  obtain ⟨payload, view, notices, r', hpayload', -, -, hreact, rfl⟩ := (hv.delivered_of_deliver hr).of_taken hv htaken
  obtain rfl : payload = .contribution c := Except.ok.inj (hpayload'.symm.trans hpayload)
  have halerts := onContribution_alerts hreact hjudge
  obtain ⟨-, ⟨cause, hjudge', -⟩ | ⟨pair', s₁, out, hjudge', -, hannounce, rfl⟩⟩ := onContribution_cases hreact
  · exact absurd (hjudge.symm.trans hjudge') (by simp)
  obtain rfl : pair = pair' := Except.ok.inj (hjudge.symm.trans hjudge')
  have hframe := announce_frame hannounce
  have hstatuses : s₁.ownStatuses = s.ownStatuses.set e.sender.toNat (some .success) := by rw [hframe]
  have hshares : s₁.shares = s.shares.set e.sender.toNat (some pair) := by rw [hframe]
  refine ⟨halerts, hstatuses, hshares, ?_, ?_⟩
  · rw [hstatuses, List.getElem?_set_self (by rwa [hv.ownStatuses_length])]
  · rw [hshares, List.getElem?_set_self (by rwa [hv.shares_length])]

theorem Introduces.accused (hc : s.Introduces e c) (hv : s.Valid) (hr : s.deliver e = some r)
    (hjudge : s.judge c = .error cause) : s.Accused e.sender cause.condition r := by
  have hviolation : s.violation? e = some cause := by
    rw [hc.violation?_eq hv]
    simp only [flaw?, hjudge]
  rcases (hv.delivered_of_deliver hr).rejected_or hv hr with ⟨cause', hcause', hrejected⟩ | ⟨hnone, -⟩
  · obtain rfl : cause = cause' := Option.some.inj (hviolation.symm.trans hcause')
    have hmarked := hrejected.marked c hc
    have hstatuses : r.shareholder.ownStatuses = s.ownStatuses.set e.sender.toNat (some .complaint) := by
      rw [hmarked]
      rfl
    refine ⟨hrejected.alerts, hstatuses, by rw [hmarked]; rfl, ?_⟩
    rw [hstatuses, List.getElem?_set_self (by rw [hv.ownStatuses_length]; exact hc.2.1)]
  · rw [hviolation] at hnone
    cases hnone

end

/-! ## what a dealer of the group deals -/

variable [Field F] [AddCommGroup G] [Module F G] [Suite F G] [DecidableEq G] {s d : Shareholder F G} {keys : List G}
  {config : Config} {g : Group G}

theorem shareCorrect_of_honest (h : d.behavior = .honest) (i : Index) :
    View.shareCorrect (pairFor d.f1 d.f2 i) i (d.commitments : Poly G) = true :=
  decide_eq_true (eval_commitments h _)

/-- unblinded commitments open to the pair exactly where the blinding is zero -/
theorem shareCorrect_of_omitBlinding (h : d.behavior = .omitBlinding) (hblinding : (blinding : G) ≠ 0) (i : Index) :
    View.shareCorrect (pairFor d.f1 d.f2 i) i (d.commitments : Poly G) = true ↔ d.f2.eval (xCoordinate i : F) = 0 := by
  have hcommitments : (d.commitments : Poly G) = d.f1.commitWith generator := if_pos h
  rw [View.shareCorrect, hcommitments, Poly.eval_commitWith, decide_eq_true_iff, pairFor, pedersen, left_eq_add,
    smul_eq_zero_iff_left hblinding]

theorem proper_of_honest (hd : d.Valid) (h : d.behavior = .honest)
    (hpoints : ∀ c : G, Suite.onCurve c = true ∧ Suite.inSubgroup c = true)
    (hne : ∀ c ∈ (Poly.pedersenCommit d.f1 d.f2 : Poly G).coeffs, c ≠ 0) :
    View.Proper d.params.k (d.commitments : Poly G) := by
  rw [commitments_of_honest h]
  refine ⟨?_, fun c hc => ⟨hne c hc, hpoints c⟩⟩
  rw [Poly.length_pedersenCommit, hd.f1_length, hd.f2_length, max_self]

theorem proper_of_omitBlinding (hd : d.Valid) (h : d.behavior = .omitBlinding) (hgenerator : (generator : G) ≠ 0)
    (hpoints : ∀ c : G, Suite.onCurve c = true ∧ Suite.inSubgroup c = true) (hne : ∀ a ∈ d.f1.coeffs, a ≠ 0) :
    View.Proper d.params.k (d.commitments : Poly G) := by
  have hcommitments : (d.commitments : Poly G) = d.f1.commitWith generator := if_pos h
  rw [hcommitments]
  refine ⟨(Poly.length_commitWith _ _).trans hd.f1_length, fun c hc => ⟨?_, hpoints c⟩⟩
  obtain ⟨a, ha, rfl⟩ := List.mem_map.1 hc
  exact smul_ne_zero (hne a ha) hgenerator

variable [Wire F] [Wire G] [Sampled F] [LawfulWire F]

/-- what was sealed for the group opens to the pair that was dealt, so proper commitments need only open to it -/
theorem judge_dealt (hg : Group.create keys config = .ok g) (hkey : g.key? s.index = some (s.privateKey • (generator : G)))
    {commitments : Poly G} (hproper : View.Proper s.params.k commitments) (f1 f2 : Poly F) (rng : Random) :
    s.judge ⟨commitments, (sealShares f1 f2 g.participants rng).1⟩ =
      if View.shareCorrect (pairFor f1 f2 s.index) s.index commitments then .ok (pairFor f1 f2 s.index)
      else .error .shareMismatch := by
  have hindex : (pairFor f1 f2 s.index).index = s.index := rfl
  simp only [judge, openShare_sealShares hg hkey, View.checkCommitments_eq_ok.2 hproper, bind, Except.bind, hindex, ne_eq,
    not_true_eq_false, ↓reduceIte, Bool.not_eq_true]
  split_ifs <;> simp_all [throw, throwThe, MonadExceptOf.throw, pure, Except.pure]

variable [DecidableEq F] [LawfulWire G]

/-- what a dealer deals first, delivered to a shareholder of its group that has not seen it -/
theorem deliver_dealt (hg : Group.create keys config = .ok g) (hv : s.Valid) (hgroup : s.group = g)
    (hkey : g.key? s.index = some (s.privateKey • (generator : G))) (hseen : s.view.seen[d.index.toNat]? = some false)
    (hsilent : d.behavior ≠ .silent) (hwithhold : d.behavior ≠ .withholdContribution) (hfirst : d.contributed = false)
    (hdealer : d.group = g) (hproper : View.Proper g.params.k (d.commitments : Poly G)) :
    ∃ c r, d.contribute.1 = some (.contribution c) ∧
      s.deliver ((Payload.contribution c : Payload F G).toEnvelope d.index) = some r ∧
      (View.shareCorrect (pairFor d.f1 d.f2 s.index) s.index (d.commitments : Poly G) = true →
        s.Accepted d.index (pairFor d.f1 d.f2 s.index) r) ∧
      (View.shareCorrect (pairFor d.f1 d.f2 s.index) s.index (d.commitments : Poly G) = false →
        s.Accused d.index .inconsistentShare r) := by
  have hk : g.params.k < 2 ^ 64 := g.threshold.toNat_lt
  have hparams : s.params = g.params := congrArg Group.params hgroup
  have hproper' : View.Proper s.params.k (d.commitments : Poly G) := by rwa [hparams]
  set c : Contribution G := ⟨d.commitments, (sealShares d.f1 d.f2 d.group.participants d.rng).1⟩ with hc
  have hfits : (Payload.contribution c : Payload F G).Fits :=
    fits_contribution (hproper.1.trans_lt hk) d.f1 d.f2 (hdealer ▸ length_participants_lt hg) d.rng
  have hintroduces : s.Introduces ((Payload.contribution c : Payload F G).toEnvelope d.index) c := by
    refine ⟨Payload.payload_toEnvelope hfits d.index, ?_, hseen⟩
    have hlt := (List.getElem?_eq_some_iff.1 hseen).1
    rwa [hv.view.seen_length] at hlt
  obtain ⟨r, hr, -⟩ := hv.delivered ((Payload.contribution c : Payload F G).toEnvelope d.index)
  have hjudge := judge_dealt hg hkey hproper' d.f1 d.f2 d.rng
  rw [← hdealer, ← hc] at hjudge
  refine ⟨c, r, contribute_some hsilent hwithhold hfirst, hr, fun hcorrect => ?_, fun hwrong => ?_⟩
  · rw [if_pos hcorrect] at hjudge
    exact hintroduces.accepted hv hr hjudge
  · rw [if_neg (by simp [hwrong])] at hjudge
    exact hintroduces.accused hv hr hjudge

end Shareholder

/-! ## histories -/

variable [Field F] [AddCommGroup G] [Module F G] [Suite F G] [Wire F] [Wire G] [Sampled F] [DecidableEq F]
  [DecidableEq G] [LawfulWire F] [LawfulWire G]

open Shareholder

omit [LawfulWire F] [LawfulWire G] in
/-- the private key of a shareholder belongs to the public key at its index, as at the start -/
theorem History.key_eq {s₀ s : Shareholder F G} {log : List Envelope} {out : List (Payload F G)} (h₀ : s₀.Fresh)
    (h : History s₀ log s out) : s.group.key? s.index = some (s.privateKey • (generator : G)) := by
  have hidentity := h.identity h₀.valid
  have hgroup : s.group = s₀.group := congrArg Identity.group hidentity
  have hindex : s.index = s₀.index := congrArg Identity.index hidentity
  have hprivate : s.privateKey = s₀.privateKey := congrArg Identity.privateKey hidentity
  rw [hgroup, hindex, hprivate]
  exact h₀.key

/-- **Honest dealing is always accepted, dealing without blinding only where it makes no difference.** In a group that
`Group.create` made, a dealer deals in any state that it can reach, and its contribution is delivered to any shareholder,
itself included, in any state that this one can reach without having seen the dealer.

If the dealer is honest and none of its commitments is the identity, no alert is raised, the dealer is judged a success, and
the pair that is stored is the one of its two polynomials at the index of the reader. If it omits the blinding and has no
coefficient zero, this is so exactly if its second polynomial is zero there, and otherwise it is complained about as
inconsistent. -/
theorem dealing_judged {keys : List G} {config : Config} {g : Group G} (hg : Group.create keys config = .ok g)
    (hgenerator : (generator : G) ≠ 0) (hblinding : (blinding : G) ≠ 0)
    (hpoints : ∀ c : G, Suite.onCurve c = true ∧ Suite.inSubgroup c = true)
    {d₀ d s₀ s : Shareholder F G} {read log : List Envelope} {dealt out : List (Payload F G)}
    (hd₀ : d₀.Fresh) (hd : History d₀ read d dealt) (hdealer : d.group = g) (hfirst : d.contributed = false)
    (hs₀ : s₀.Fresh) (hs : History s₀ log s out) (hreader : s.group = g)
    (hseen : s.view.seen[d.index.toNat]? = some false) :
    (d.behavior = .honest → (∀ c ∈ (Poly.pedersenCommit d.f1 d.f2 : Poly G).coeffs, c ≠ 0) →
      ∃ c r, d.contribute.1 = some (.contribution c) ∧
        s.deliver ((Payload.contribution c : Payload F G).toEnvelope d.index) = some r ∧
          s.Accepted d.index (pairFor d.f1 d.f2 s.index) r) ∧
    (d.behavior = .omitBlinding → (∀ a ∈ d.f1.coeffs, a ≠ 0) →
      ∃ c r, d.contribute.1 = some (.contribution c) ∧
        s.deliver ((Payload.contribution c : Payload F G).toEnvelope d.index) = some r ∧
          (s.Accepted d.index (pairFor d.f1 d.f2 s.index) r ↔ d.f2.eval (xCoordinate s.index : F) = 0) ∧
          (d.f2.eval (xCoordinate s.index : F) ≠ 0 → s.Accused d.index .inconsistentShare r)) := by
  have hv := hd.valid hd₀.valid
  have hkey := hreader ▸ hs.key_eq hs₀
  have hdeliver := fun hsilent hwithhold =>
    deliver_dealt hg (hs.valid hs₀.valid) hreader hkey hseen hsilent hwithhold hfirst hdealer
  rw [show g.params = d.params from congrArg Group.params hdealer.symm] at hdeliver
  constructor
  · intro hhonest hne
    obtain ⟨c, r, hc, hr, haccepted, -⟩ := hdeliver (by rw [hhonest]; decide) (by rw [hhonest]; decide)
      (proper_of_honest hv hhonest hpoints hne)
    exact ⟨c, r, hc, hr, haccepted (shareCorrect_of_honest hhonest s.index)⟩
  · intro homit hne
    obtain ⟨c, r, hc, hr, haccepted, haccused⟩ := hdeliver (by rw [homit]; decide) (by rw [homit]; decide)
      (proper_of_omitBlinding hv homit hgenerator hpoints hne)
    have hcorrect := shareCorrect_of_omitBlinding (G := G) homit hblinding s.index
    have hwrong : d.f2.eval (xCoordinate s.index : F) ≠ 0 → s.Accused d.index .inconsistentShare r := fun hne =>
      haccused (eq_false_of_ne_true (mt hcorrect.1 hne))
    refine ⟨c, r, hc, hr, ⟨fun h => ?_, fun hzero => haccepted (hcorrect.2 hzero)⟩, hwrong⟩
    by_contra hne
    exact (hwrong hne).not_accepted h

/-- shareholder 2 of five deals without blinding; what it does not blind with is zero for shareholder 1 only -/
def unblindedTwo : Shareholder (ZMod 11) (ZMod 11) :=
  .started 2 1 Cast.five.group .omitBlinding (.ofSeed []) ⟨[1, 1]⟩ ⟨[9, 1]⟩

theorem fresh_unblindedTwo : unblindedTwo.Fresh :=
  fresh_started (Cast.validate_uniformGroup rfl) (Cast.key_uniformGroup (by decide)) rfl rfl

/-- shareholder 1 accepts what shareholder 2 deals honestly, and what it deals without blinding; shareholder 3 does not -/
theorem dealing_judged_five :
    (∃ c r, (Cast.five.start 2).contribute.1 = some (.contribution c) ∧
      (Cast.five.start 1).deliver ((Payload.contribution c : Payload (ZMod 11) (ZMod 11)).toEnvelope 2) = some r ∧
        (Cast.five.start 1).Accepted 2 ⟨1, 3, 0⟩ r) ∧
    (∃ c r, unblindedTwo.contribute.1 = some (.contribution c) ∧
      (Cast.five.start 1).deliver ((Payload.contribution c : Payload (ZMod 11) (ZMod 11)).toEnvelope 2) = some r ∧
        (Cast.five.start 1).Accepted 2 ⟨1, 3, 0⟩ r) ∧
    ∃ c r, unblindedTwo.contribute.1 = some (.contribution c) ∧
      (Cast.five.start 3).deliver ((Payload.contribution c : Payload (ZMod 11) (ZMod 11)).toEnvelope 2) = some r ∧
        (Cast.five.start 3).Accused 2 .inconsistentShare r := by
  have hfresh : ∀ i : Index, i.toNat < 5 → (Cast.five.start i).Fresh := fun i hi =>
    Cast.ready_five.fresh i (by rw [Cast.params_five]; exact hi)
  have hseen : ∀ i : Index, i.toNat < 5 → (Cast.five.start i).view.seen[(2 : Index).toNat]? = some false := by
    intro i hi
    rw [(hfresh i hi).view, (Cast.ready_five.params_eq (by rw [Cast.params_five]; exact hi)).trans Cast.params_five]
    rfl
  have hjudged := fun (d₀ : Shareholder (ZMod 11) (ZMod 11)) (hd₀ : d₀.Fresh) (hdealer : d₀.group = Cast.five.group)
      (i : Index) (hi : i.toNat < 5) (hindex : d₀.index = 2) =>
    dealing_judged (Cast.create_uniformGroup rfl) one_ne_zero (by decide) (fun _ => ⟨rfl, rfl⟩) hd₀ .start hdealer
      hd₀.contributed (hfresh i hi) .start rfl (by rw [hindex]; exact hseen i hi)
  refine ⟨?_, ?_, ?_⟩
  · exact (hjudged _ (hfresh 2 (by decide)) rfl 1 (by decide) rfl).1 rfl (by decide)
  · obtain ⟨c, r, hc, hr, haccepted, -⟩ := (hjudged _ fresh_unblindedTwo rfl 1 (by decide) rfl).2 rfl (by decide)
    exact ⟨c, r, hc, hr, haccepted.2 (by decide)⟩
  · obtain ⟨c, r, hc, hr, -, haccused⟩ := (hjudged _ fresh_unblindedTwo rfl 3 (by decide) rfl).2 rfl (by decide)
    exact ⟨c, r, hc, hr, haccused (by decide)⟩

end DistributedKey
