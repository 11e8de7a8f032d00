/-
What a shareholder has settled stays settled, and its matrix of verdicts changes by one row or by one cell at a time.

Agreement long after the fact rests on this: a second contribution, a late vector, a late proof or a reconstruction run
again would otherwise change what others have acted on.

- `VerdictStep`: the ways in which one entry may change the matrix. `View.verdictStep_after`: it does so in no other.
- `View.provenShares_after`: the shares that a sender proved are not written over, because it is in U.
- `Lasting s t`: everything that `s` has settled is settled in the same way in `t`. `Lasting.delivered`: one delivery.
- `History.lasting`: along a history, however long.
- `settled_for_good`: both, for every state that a shareholder can reach.
-/
import DistributedKey.Proofs.Shareholder.Alike
import DistributedKey.Proofs.ShareTable
import DistributedKey.Proofs.View.Staged
import DistributedKey.Proofs.Silent.Uniform

namespace DistributedKey

open Checked

variable {F G : Type}

namespace View

variable [Suite F G] [NatCast F] [Zero F] [One F] [Sub F] [Mul F] [Inv F] [Zero G] [Add G] [SMul F G]
  [Wire F] [Wire G] [DecidableEq F] [DecidableEq G]
  {p : Params} {v : View G} {e : Envelope}

/-- what the matrix of a view may be after one more entry -/
inductive VerdictStep (p : Params) (v : View G) (e : Envelope) : StatusMatrix → Prop
  | same : VerdictStep p v e v.verdicts
  /-- a row that was absent, of the sender's own vector -/
  | announced {statuses : List (Option Status)} (hpayload : e.payload = .ok (.verification statuses : Payload F G))
      (habsent : v.verdicts.row? e.sender.toNat = none) (hlen : statuses.length = p.n) :
      VerdictStep p v e ⟨v.verdicts.rows.set e.sender.toNat (some statuses)⟩
  /-- one cell of a row that was there, a complaint that the sender answers by the pair it dealt -/
  | rebutted {b : Rebuttal F} {cells : List (Option Status)} {c : Poly G}
      (hpayload : e.payload = .ok (.rebuttal b : Payload F G))
      (hrow : v.verdicts.row? b.accuser.toNat = some cells) (hcell : cells[e.sender.toNat]? = some (some .complaint))
      (hindex : b.share.index = b.accuser) (hc : v.commitments[e.sender.toNat]? = some (some c))
      (hopens : pedersen b.share.value b.share.blinding = c.eval (xCoordinate b.accuser : F)) :
      VerdictStep p v e
        ⟨v.verdicts.rows.set b.accuser.toNat (some (cells.set e.sender.toNat (some .success)))⟩

theorem verdictStep_after (h : Valid p v) (e : Envelope) : VerdictStep p v e (v.after p e).verdicts := by
  rcases verdicts_after h e with hsame | ⟨statuses, notices, hpayload, -, hstep, habsent, hrows⟩ |
    ⟨b, notices, hpayload, -, hstep, hcell, hset⟩
  · rw [hsame]
    exact .same
  · obtain ⟨-, -, hlen, -⟩ := takeVerification_eq_ok.1 (step_verification_eq_ok.1 hstep).1
    rw [hrows]
    exact .announced hpayload habsent hlen
  · obtain ⟨-, -, ⟨c, hc, hcorrect⟩, hindex, -⟩ := takeRebuttal_eq_ok.1 (step_rebuttal_eq_ok.1 hstep).1
    obtain ⟨cells, hrow, hcomplaint⟩ := StatusMatrix.cell_eq_some.1 hcell
    rw [hset, StatusMatrix.set_eq_setRow hrow]
    exact .rebutted hpayload hrow hcomplaint hindex hc (of_decide_eq_true hcorrect).symm

/-- the shares that a sender has proved stay: it is in U, and who is in U is refused -/
theorem provenShares_after (h : Valid p v) (hs : Staged v) {i : Nat} {m : IndexMap G}
    (hm : v.provenShares[i]? = some (some m)) : (v.after p e).provenShares[i]? = some (some m) := by
  rcases after_cases p v e with hsame | ⟨payload, notices, -, -, hstep⟩
  · rwa [hsame]
  · rcases key_cases h hstep with ⟨-, hshares, -, -⟩ | ⟨b, -, haccepts⟩
    · rwa [hshares]
    · obtain ⟨j, hj, rfl⟩ := hs.senders i m hm
      have hne : e.sender.toNat ≠ j.toNat := fun heq => haccepts.new (UInt32.toNat_inj.1 heq ▸ hj)
      rw [haccepts.frame.2, List.getElem?_set_ne hne, hm]

end View

/-! ## one delivery -/

namespace Shareholder

/-- everything that `s` has settled is settled in the same way in `t` -/
structure Lasting (s t : Shareholder F G) : Prop where
  view : View.Settles s.view t.view
  provenShares : ∀ (j : Nat) (m : IndexMap G), s.view.provenShares[j]? = some (some m) →
    t.view.provenShares[j]? = some (some m)
  finalShare : ∀ pair, s.finalShare = some pair → t.finalShare = some pair
  successes : ∀ d : Nat, s.ownStatuses[d]? = some (some .success) → t.ownStatuses[d]? = some (some .success)

section

variable {s t s' : Shareholder F G} {before : View G} {out : List (Payload F G)} {pair : SharePair F}

theorem Lasting.refl (s : Shareholder F G) : Lasting s s where
  view := .refl _
  provenShares _ _ h := h
  finalShare _ h := h
  successes _ h := h

theorem Lasting.trans (h : Lasting s t) (h' : Lasting t s') : Lasting s s' where
  view := h.view.trans h'.view
  provenShares j m hm := h'.provenShares j m (h.provenShares j m hm)
  finalShare pair hpair := h'.finalShare pair (h.finalShare pair hpair)
  successes d hd := h'.successes d (h.successes d hd)

variable [Zero F] [Add F]

theorem tryFinalShare_kept (h : s.tryFinalShare = .ok s') (hpair : s.finalShare = some pair) :
    s'.finalShare = some pair := by
  rcases tryFinalShare_cases h with ⟨rfl, -⟩ | ⟨q, value, blinding, hnone, -⟩
  · exact hpair
  · rw [hnone] at hpair
    cases hpair

variable [Suite F G] [Sub F] [Mul F] [SMul F G] [Wire G] [Sampled F]

theorem onQual_finalShare_kept (h : s.onQual before = .ok (s', out)) (hpair : s.finalShare = some pair) :
    s'.finalShare = some pair :=
  onQual_keeps (P := fun s => s.finalShare = some pair) hpair (fun _ hfinal => tryFinalShare_kept hfinal hpair)
    (fun _ _ => id) h

end

variable [Suite F G] [NatCast F] [Zero F] [One F] [Add F] [Sub F] [Mul F] [Inv F] [SMul F F] [Zero G] [Add G]
  [SMul F G] [Wire F] [Wire G] [Sampled F] [DecidableEq F] [DecidableEq G]
  {s : Shareholder F G} {e : Envelope} {r : Response F G} {pair : SharePair F}

/-- a final share is computed once -/
theorem Delivered.finalShare_kept (h : Delivered s e r) (hpair : s.finalShare = some pair) :
    r.shareholder.finalShare = some pair := by
  cases h with
  | refused cause hno => exact hpair
  | @accepted payload view notices r hpayload hsender hstep hreact =>
    change r.shareholder.finalShare = some pair
    cases payload with
    | contribution c => rwa [onContribution_frame hreact]
    | verification statuses =>
      obtain ⟨own, s₁, out, -, hok, rfl⟩ := onVerification_cases hreact
      exact onQual_finalShare_kept hok hpair
    | rebuttal b =>
      obtain ⟨s₁, s₂, out, hok, hfinal, rfl, -⟩ := onRebuttal_cases hreact
      have hadopt : (Shareholder.adopt { s with view } e.sender b).finalShare = some pair := by
        unfold Shareholder.adopt
        split_ifs <;> exact hpair
      exact tryFinalShare_kept hfinal (onQual_finalShare_kept hok hadopt)
    | proof π => rwa [onProof_frame hreact]
    | bulkProof b =>
      simp only [react, pure_eq_ok] at hreact
      rwa [← hreact]

/-- **Nothing settled is taken back by a delivery.** -/
theorem Lasting.delivered (hv : s.Valid) (hs : s.Sound) (hstaged : s.view.Staged) (h : Delivered s e r) :
    Lasting s r.shareholder where
  view := h.settles hv
  provenShares j m hm := by
    rw [h.view]
    exact View.provenShares_after hv.view hstaged hm
  finalShare _ hpair := h.finalShare_kept hpair
  successes _ hsuccess := success_persists hv hs h hsuccess

end Shareholder

/-! ## along a history -/

variable [Suite F G] [NatCast F] [Zero F] [One F] [Add F] [Sub F] [Mul F] [Inv F] [SMul F F] [Zero G] [Add G]
  [SMul F G] [Wire F] [Wire G] [Sampled F] [DecidableEq F] [DecidableEq G]
  {s₀ s t : Shareholder F G} {log later : List Envelope} {out out' : List (Payload F G)}

theorem History.staged (h₀ : s₀.Fresh) (h : History s₀ log s out) : s.view.Staged := by
  rw [h.view_eq_ofLog h₀]
  exact View.staged_ofLog s₀.params log

/-- **Nothing settled is taken back however much more is read**, and whenever the shareholder deals. -/
theorem History.lasting (h₀ : s₀.Fresh) (hs : History s₀ log s out) (ht : History s₀ (log ++ later) t out') :
    Shareholder.Lasting s t := by
  obtain ⟨t', out'', ht', -, -, hlasting⟩ := hs.extend h₀.valid
    (P := fun t => t.Sound ∧ t.view.Staged ∧ Shareholder.Lasting s t)
    ⟨hs.sound h₀, hs.staged h₀, .refl s⟩
    (fun t e r hv ⟨hsound, hstaged, hlasting⟩ hd => ⟨hsound.delivered hv hd,
      hd.view ▸ hstaged.after hv.view e, hlasting.trans (.delivered hv hsound hstaged hd)⟩) later
  have halike := ht'.alike h₀.valid ht
  refine ⟨?_, ?_, ?_, ?_⟩
  · rw [halike.view]
    exact hlasting.view
  · rw [halike.view]
    exact hlasting.provenShares
  · rw [halike.finalShare]
    exact hlasting.finalShare
  · rw [halike.ownStatuses]
    exact hlasting.successes

/-- **What is settled is settled for good.** In every state that a shareholder can reach, whatever entry comes next, the
matrix of verdicts gets one absent row, or one complaint in it turns into a success because the accused reveals a pair that
opens its commitments, or it stays; and commitments, proved shares, QUAL, R, the final share and the public key stay once
they are there, the dealers seen, those that proved and U only grow, and an own judgment of success stays. So no dealer
loses a success and no rebutted complaint comes back, however much more is read. -/
theorem settled_for_good (h₀ : s₀.Fresh) (h : History s₀ log s out) :
    (∀ e, ∃ r, s.deliver e = some r ∧ View.VerdictStep (F := F) s₀.params s.view e r.shareholder.view.verdicts ∧
      Shareholder.Lasting s r.shareholder) ∧
    ∀ later t out', History s₀ (log ++ later) t out' → Shareholder.Lasting s t ∧
      (∀ d, s.view.verdicts.successesFor d ≤ t.view.verdicts.successesFor d) ∧
      ∀ j d : Nat, s.view.verdicts.cell j d = some .success → t.view.verdicts.cell j d = some .success := by
  have hvalid := h.valid h₀.valid
  refine ⟨fun e => ?_, fun later t out' ht => ?_⟩
  · obtain ⟨r, hdeliver, hdelivered⟩ := hvalid.delivered e
    refine ⟨r, hdeliver, ?_, .delivered hvalid (h.sound h₀) (h.staged h₀) hdelivered⟩
    rw [hdelivered.view, h.params_eq h₀.valid]
    exact View.verdictStep_after (h.params_eq h₀.valid ▸ hvalid.view) e
  · have hlasting := h.lasting h₀ ht
    exact ⟨hlasting, fun d => hlasting.view.successes.successesFor_le d, hlasting.view.successes.cell⟩

/-- five shareholders that have come to rest: one keeps its key and its final share whatever it is sent -/
theorem settled_for_good_five : ∃ (log : List Envelope) (s : Shareholder (ZMod 11) (ZMod 11))
    (out : List (Payload (ZMod 11) (ZMod 11))) (y : ZMod 11) (pair : SharePair (ZMod 11)),
      History (Cast.five.start 1) log s out ∧ s.view.publicKey = some y ∧ s.finalShare = some pair ∧
        ∀ e, ∃ r, s.deliver e = some r ∧ r.shareholder.view.publicKey = some y ∧
          r.shareholder.finalShare = some pair := by
  obtain ⟨posts, s, out, -, -, hhistory, -, hkey, hfinal⟩ := Cast.five_at_rest
  obtain ⟨y, hy⟩ := Option.isSome_iff_exists.1 hkey
  obtain ⟨pair, hpair⟩ := Option.isSome_iff_exists.1 hfinal
  obtain ⟨hnext, -⟩ := settled_for_good Cast.fresh_five hhistory
  refine ⟨posts.map Post.seal, s, out, y, pair, hhistory, hy, hpair, fun e => ?_⟩
  obtain ⟨r, hdeliver, -, hlasting⟩ := hnext e
  exact ⟨r, hdeliver, hlasting.view.publicKey y hy, hlasting.finalShare pair hpair⟩

end DistributedKey
