/-
The first message that is taken in wins: what its sender sends later in its place changes nothing.

A sender has one slot for each kind of message, and one for each accuser that it rebuts. What marks a slot as spent is
another field for each kind: the dealer is seen, the row is there, the cell says success, the sender is among those that
proved, or in U, or the key is known.

- `Spent v j x`: the slot that message `x` of sender `j` would go to is spent.
- `spent_step`: a message that is taken in spends its slot. `Spent.settles`: a slot stays spent.
- `Spent.step_eq`: a message whose slot is spent is refused, or is a bulk proof that comes after the key and is ignored.
- `Delivered.of_spent`: either way it leaves an alert at most.
- `first_taken_wins`: however much is read in between, and whether or not the later message is the same.
-/
import DistributedKey.Proofs.Rejection
import DistributedKey.Proofs.Secrecy
import DistributedKey.Proofs.View.Staged

namespace DistributedKey

open Checked

variable {F G : Type}

namespace View

variable {p : Params} {v v' : View G} {j : Index} {x x' : Payload F G} {notices : List Notice}

/-! ## slots -/

/-- the slot of a message of a sender is spent -/
def Spent (v : View G) (j : Index) : Payload F G → Prop
  | .contribution _ => v.seen[j.toNat]? = some true
  | .verification _ => (v.verdicts.row? j.toNat).isSome
  | .rebuttal b => v.verdicts.cell b.accuser.toNat j.toNat = some .success
  | .proof _ => j ∈ v.proofSet
  | .bulkProof _ => j ∈ v.uSet ∨ v.publicKey.isSome

/-- a slot stays spent -/
theorem Spent.settles (hspent : Spent v j x) (h : Settles v v') : Spent v' j x := by
  cases x with
  | contribution c => exact h.seen _ hspent
  | verification statuses => exact h.announced _ hspent
  | rebuttal b => exact h.successes.cell _ _ hspent
  | proof π => exact h.proofSet _ hspent
  | bulkProof b =>
    refine hspent.imp (h.uSet j) fun hknown => ?_
    obtain ⟨y, hy⟩ := Option.isSome_iff_exists.1 hknown
    rw [h.publicKey y hy]
    rfl

/-- messages of one kind, and rebuttals of one accuser, go to the same slot -/
theorem Spent.same_slot (hspent : Spent v j x) (hkind : x'.opcode = x.opcode)
    (haccuser : ∀ b b', x = .rebuttal b → x' = .rebuttal b' → b'.accuser = b.accuser) : Spent v j x' := by
  cases x with
  | contribution c =>
    obtain ⟨c', rfl⟩ := Payload.exists_contribution hkind
    exact hspent
  | verification statuses =>
    cases x' with
    | verification statuses' => exact hspent
    | contribution _ | rebuttal _ | proof _ | bulkProof _ => cases hkind
  | rebuttal b =>
    obtain ⟨b', rfl⟩ := Payload.exists_rebuttal hkind
    rw [Spent, haccuser b b' rfl rfl]
    exact hspent
  | proof π =>
    obtain ⟨π', rfl⟩ := Payload.exists_proof hkind
    exact hspent
  | bulkProof b =>
    obtain ⟨b', rfl⟩ := Payload.exists_bulkProof hkind
    exact hspent

variable [Suite F G] [NatCast F] [Zero F] [One F] [Sub F] [Mul F] [Inv F] [Zero G] [Add G] [SMul F G] [Wire G]
  [DecidableEq F] [DecidableEq G]

/-- **A message that is taken in spends its slot.** -/
theorem spent_step (h : Valid p v) (hok : v.step p j x = .ok (v', notices)) : Spent v' j x := by
  cases x with
  | contribution c =>
    obtain ⟨hw, -⟩ := step_contribution_eq_ok.1 hok
    obtain ⟨hseen, rfl⟩ := (takeContribution_eq_ok h.commitments_eq_seen).1 hw
    exact List.getElem?_set_self (List.getElem?_eq_some_iff.1 hseen).1
  | verification statuses =>
    obtain ⟨hw, -⟩ := step_verification_eq_ok.1 hok
    obtain ⟨hlt, -, -, rfl⟩ := takeVerification_eq_ok.1 hw
    rw [Spent, tryQual_verdicts, StatusMatrix.row?_setRow hlt, if_pos rfl]
    rfl
  | rebuttal b =>
    obtain ⟨hw, -⟩ := step_rebuttal_eq_ok.1 hok
    obtain ⟨-, hcomplaint, -, -, rfl⟩ := takeRebuttal_eq_ok.1 hw
    rw [Spent, tryQual_verdicts]
    exact StatusMatrix.cell_set_self hcomplaint
  | proof π =>
    obtain ⟨hw, -⟩ := step_proof_eq_ok.1 hok
    obtain ⟨q, c, c₀, -, -, -, -, -, -, -, rfl⟩ := (takeProof_eq_ok h.publicTerms_eq_commitments).1 hw
    exact IndexSet.mem_insert.2 (Or.inl rfl)
  | bulkProof b =>
    rcases takeBulkProof_cases h hok with ⟨hknown, rfl, -⟩ | haccepts
    · exact Or.inr hknown
    · left
      rw [haccepts.frame.1]
      exact IndexSet.mem_insert.2 (Or.inl rfl)

/-- **What comes to a spent slot is not taken in**, but for a bulk proof after the key, which is ignored. -/
theorem Spent.step_eq (hspent : Spent v j x) (h : Valid p v) (hok : v.step p j x = .ok (v', notices)) :
    x.opcode = .bulkProof ∧ v' = v := by
  cases x with
  | contribution c =>
    obtain ⟨hw, -⟩ := step_contribution_eq_ok.1 hok
    obtain ⟨hseen, -⟩ := (takeContribution_eq_ok h.commitments_eq_seen).1 hw
    cases hseen.symm.trans hspent
  | verification statuses =>
    obtain ⟨hw, -⟩ := step_verification_eq_ok.1 hok
    obtain ⟨-, habsent, -, -⟩ := takeVerification_eq_ok.1 hw
    rw [Spent, habsent] at hspent
    cases hspent
  | rebuttal b =>
    obtain ⟨hw, -⟩ := step_rebuttal_eq_ok.1 hok
    obtain ⟨-, hcomplaint, -⟩ := takeRebuttal_eq_ok.1 hw
    cases hcomplaint.symm.trans hspent
  | proof π =>
    obtain ⟨hw, -⟩ := step_proof_eq_ok.1 hok
    obtain ⟨q, c, c₀, -, -, -, hnew, -⟩ := (takeProof_eq_ok h.publicTerms_eq_commitments).1 hw
    exact absurd hspent hnew
  | bulkProof b =>
    rcases takeBulkProof_cases h hok with ⟨-, hsame, -⟩ | haccepts
    · exact ⟨rfl, hsame⟩
    · rcases hspent with hmem | hknown
      · exact absurd hmem haccepts.new
      · rw [haccepts.unknown] at hknown
        cases hknown

end View

variable [Suite F G] [NatCast F] [Zero F] [One F] [Add F] [Sub F] [Mul F] [Inv F] [SMul F F] [Zero G] [Add G]
  [SMul F G] [Wire F] [Wire G] [Sampled F] [DecidableEq F] [DecidableEq G]

/-! ## one delivery -/

namespace Shareholder

variable {s : Shareholder F G} {e : Envelope} {r : Response F G}

/-- what comes to a spent slot is not answered and leaves an alert at most -/
theorem Delivered.of_spent (h : Delivered s e r) (hv : s.Valid)
    (hspent : ∀ x : Payload F G, e.payload = .ok x → View.Spent s.view e.sender x) :
    r.outgoing = [] ∧ r.shareholder = { s with alerts := r.shareholder.alerts } := by
  cases h with
  | refused cause hno => exact ⟨rfl, rfl⟩
  | @accepted payload view notices r hpayload hsender hstep hreact =>
    obtain ⟨hkind, rfl⟩ := (hspent payload hpayload).step_eq hv.view hstep
    obtain ⟨b, rfl⟩ := Payload.exists_bulkProof hkind
    simp only [react, pure_eq_ok] at hreact
    subst hreact
    exact ⟨ite_self _, rfl⟩

end Shareholder

/-! ## histories -/

variable {s₀ s t : Shareholder F G} {log later : List Envelope} {e e' : Envelope} {out out' : List (Payload F G)}

/-- the slot of an entry that was taken in is spent from then on -/
theorem History.spent (h₀ : s₀.Fresh) (hs : History s₀ log s out) (htaken : s.view.refusal? s₀.params e = none)
    (ht : History s₀ (log ++ e :: later) t out') :
    ∃ x : Payload F G, e.payload = .ok x ∧ View.Spent t.view e.sender x := by
  rw [hs.view_eq_ofLog h₀] at htaken
  obtain ⟨x, ⟨v, notices⟩, hpayload, hlt, hstep⟩ :=
    ((View.valid_ofLog _ log).refusal?_eq_none h₀.valid.admissible).1 htaken
  have hlog : log ++ e :: later = log ++ [e] ++ later := by simp
  refine ⟨x, hpayload, ?_⟩
  rw [ht.view_eq_ofLog h₀, hlog]
  refine View.Spent.settles ?_ (View.settles_ofLog _ (List.prefix_append _ _))
  rw [View.ofLog_concat, View.after_of_step hpayload hlt hstep]
  exact View.spent_step (View.valid_ofLog _ log) hstep

/-- **The first message wins.** Once the view of a shareholder has taken in a message of a sender, be it a contribution,
judged valid or not, a vector, a proof, a bulk proof or a rebuttal, every later entry of that sender with the same opcode,
and about the same accuser if it is a rebuttal, is delivered, is not answered, and changes nothing but the alerts. It makes
no difference what it says, what else is read in between, and what has been frozen by then. -/
theorem first_taken_wins (h₀ : s₀.Fresh) (hs : History s₀ log s out) (htaken : s.view.refusal? s₀.params e = none)
    (ht : History s₀ (log ++ e :: later) t out') (hsender : e'.sender = e.sender) (hopcode : e'.opcode = e.opcode)
    (haccuser : ∀ b b' : Rebuttal F, e.payload = .ok (.rebuttal b : Payload F G) →
      e'.payload = .ok (.rebuttal b' : Payload F G) → b'.accuser = b.accuser) :
    ∃ r, t.deliver e' = some r ∧ r.outgoing = [] ∧ r.shareholder = { t with alerts := r.shareholder.alerts } := by
  have hvalid := ht.valid h₀.valid
  obtain ⟨x, hpayload, hspent⟩ := hs.spent h₀ htaken ht
  obtain ⟨r, hr, hd⟩ := hvalid.delivered e'
  refine ⟨r, hr, hd.of_spent hvalid fun x' hpayload' => ?_⟩
  have hkind : x'.opcode = x.opcode := by
    rw [Envelope.opcode_of_payload hpayload, Envelope.opcode_of_payload hpayload'] at hopcode
    exact Opcode.code_inj.1 hopcode
  rw [hsender]
  refine hspent.same_slot hkind fun b b' hb hb' => haccuser b b' ?_ ?_
  · rw [hpayload, hb]
  · rw [hpayload', hb']

/-- shareholder 3 of five takes its complaint back: shareholder 1 keeps the vector that came first -/
theorem first_taken_wins_five : ∃ (t : Shareholder (ZMod 11) (ZMod 11)) (out : List (Payload (ZMod 11) (ZMod 11)))
    (r : Shareholder.Response (ZMod 11) (ZMod 11)), History (Cast.five.start 1) [complaintOfThree.toEnvelope 3] t out ∧
      t.deliver ((Payload.verification [] : Payload (ZMod 11) (ZMod 11)).toEnvelope 3) = some r ∧ r.outgoing = [] ∧
        r.shareholder.view.verdicts.cell 3 1 = some .complaint := by
  have hfresh := Cast.fresh_five
  have hview : (Cast.five.start 1).view = .initial 5 := by rw [hfresh.view, Cast.params_start_five]
  have hlt : (complaintOfThree.toEnvelope 3).sender.toNat < (Cast.five.start 1).params.n := by
    rw [Cast.params_start_five]
    decide
  obtain ⟨v, hcell, hstep⟩ : ∃ v : View (ZMod 11), v.verdicts.cell 3 1 = some .complaint ∧
      (Cast.five.start 1).view.step (Cast.five.start 1).params 3 complaintOfThree = .ok (v, []) := by
    rw [hview, Cast.params_start_five]
    refine ⟨_, ?_, View.step_verification_eq_ok.2
      ⟨View.takeVerification_eq_ok.2 ⟨by decide, by decide, rfl, rfl⟩, rfl⟩⟩
    rw [View.tryQual_verdicts]
    rfl
  have htaken : (Cast.five.start 1).view.refusal? (Cast.five.start 1).params (complaintOfThree.toEnvelope 3) = none :=
    (hfresh.valid.view.refusal?_eq_none hfresh.valid.admissible).2
      ⟨complaintOfThree, _, payload_complaintOfThree, hlt, hstep⟩
  obtain ⟨t, out, ht⟩ := History.exists_of_log hfresh.valid [complaintOfThree.toEnvelope 3]
  have hsender : ((Payload.verification [] : Payload (ZMod 11) (ZMod 11)).toEnvelope 3).sender =
      (complaintOfThree.toEnvelope 3).sender := rfl
  have hnot : ∀ b b' : Rebuttal (ZMod 11),
      (complaintOfThree.toEnvelope 3).payload = .ok (.rebuttal b : Payload (ZMod 11) (ZMod 11)) →
        ((Payload.verification [] : Payload (ZMod 11) (ZMod 11)).toEnvelope 3).payload =
          .ok (.rebuttal b' : Payload (ZMod 11) (ZMod 11)) → b'.accuser = b.accuser := by
    intro b b' hb
    rw [payload_complaintOfThree] at hb
    cases hb
  obtain ⟨r, hr, hout, hstate⟩ := first_taken_wins hfresh .start htaken ht hsender rfl hnot
  refine ⟨t, out, r, ht, hr, hout, ?_⟩
  have hthen : t.view = v := (ht.view_eq hfresh.valid).trans (View.after_of_step payload_complaintOfThree hlt hstep)
  rw [hstate]
  exact hthen ▸ hcell

end DistributedKey
