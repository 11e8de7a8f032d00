/-
Which complaints stand, for a log of any content.

A complaint is a cell of the matrix: the accuser's vector puts it there, and a rebuttal of the dealer that is taken in
turns it into a success for good. Nothing else has any part in it.

- `complaint_iff`: after a log a complaint stands exactly if the accuser accuses the dealer and no entry clears it.
- `exists_vector`: a row is a vector that was taken in.
- `Dealt`: a contribution of the dealer is on the log, which is all that decides whether the dealer is seen.
-/
import DistributedKey.Proofs.Codec
import DistributedKey.Proofs.Rebuttals

namespace DistributedKey

open Checked

variable {F G : Type}

/-- a contribution of the dealer is on the log -/
def Dealt (d : Index) (log : List Envelope) : Prop :=
  ∃ e ∈ log, e.sender = d ∧ e.opcode = Opcode.contribution.code

theorem Dealt.mono {d : Index} {log log' : List Envelope} (h : Dealt d log) (hpre : log <+: log') : Dealt d log' := by
  obtain ⟨e, he, hcontribution⟩ := h
  exact ⟨e, hpre.subset he, hcontribution⟩

theorem dealt_concat {d : Index} {log : List Envelope} {e : Envelope} :
    Dealt d (log ++ [e]) ↔ Dealt d log ∨ e.sender = d ∧ e.opcode = Opcode.contribution.code := by
  simp [Dealt, or_and_right, exists_or]

namespace View

variable [Suite F G] [NatCast F] [Zero F] [One F] [Sub F] [Mul F] [Inv F] [Zero G] [Add G] [SMul F G]
  [Wire F] [Wire G] [DecidableEq F] [DecidableEq G]
variable {p : Params} {d j : Index} {v : View G} {e : Envelope} {log : List Envelope}

/-! ## contributions -/

/-- nothing but a contribution of a dealer changes what is known of its dealing -/
theorem after_of_not_dealing (h : Valid p v) (hno : ¬ (e.sender = d ∧ e.opcode = Opcode.contribution.code)) :
    (v.after p e).seen[d.toNat]? = v.seen[d.toNat]? ∧
      (v.after p e).commitments[d.toNat]? = v.commitments[d.toNat]? := by
  rcases after_cases p v e with hv | ⟨payload, notices, hpayload, -, hstep⟩
  · rw [hv]
    exact ⟨rfl, rfl⟩
  · generalize v.after p e = v' at hstep ⊢
    cases payload with
    | contribution c =>
      have hne : e.sender.toNat ≠ d.toNat := fun heq =>
        hno ⟨UInt32.toNat_inj.1 heq, Envelope.opcode_of_payload hpayload⟩
      obtain ⟨hw, -⟩ := step_contribution_eq_ok.1 hstep
      rw [takeContribution_eq_ok h.commitments_eq_seen] at hw
      obtain ⟨-, rfl⟩ := hw
      refine ⟨List.getElem?_set_ne hne, ?_⟩
      dsimp only [keepCommitments]
      split
      · exact List.getElem?_set_ne hne
      · rfl
    | verification _ | rebuttal _ | proof _ | bulkProof _ =>
      obtain ⟨hseen, hcommitments⟩ := step_frame h hstep (by simp)
      rw [hseen, hcommitments]
      exact ⟨rfl, rfl⟩

/-- the first contribution of a dealer is taken in -/
theorem commitments_after (h : Valid p v) {c : Contribution G}
    (hpayload : (e.payload : Except Violation (Payload F G)) = .ok (.contribution c)) (hlt : e.sender.toNat < p.n)
    (hunseen : v.seen[e.sender.toNat]? = some false) :
    (v.after p e).commitments = keepCommitments p.k c.commitments e.sender.toNat v.commitments := by
  obtain ⟨v', htake⟩ : ∃ v', v.takeContribution p e.sender c = .ok v' :=
    ⟨_, (takeContribution_eq_ok h.commitments_eq_seen).2 ⟨hunseen, rfl⟩⟩
  have hstep : v.step p e.sender (.contribution c : Payload F G) = .ok (v', []) :=
    step_contribution_eq_ok.2 ⟨htake, rfl⟩
  rw [after_of_step hpayload hlt hstep]
  obtain ⟨-, rfl⟩ := (takeContribution_eq_ok h.commitments_eq_seen).1 htake
  rfl

/-- a dealer that is seen has dealt -/
theorem dealt_of_seen (h : (ofLog p log : View G).seen[d.toNat]? = some true) : Dealt d log := by
  induction log using List.reverseRecOn with
  | nil => simp [ofLog, along, initial, List.getElem?_replicate] at h
  | append_singleton log e ih =>
    by_cases hdealing : e.sender = d ∧ e.opcode = Opcode.contribution.code
    · exact dealt_concat.2 (Or.inr hdealing)
    · rw [ofLog_concat, (after_of_not_dealing (valid_ofLog p log) hdealing).1] at h
      exact dealt_concat.2 (Or.inl (ih h))

theorem dealt_of_committed {c : Poly G} (h : (ofLog p log : View G).commitments[d.toNat]? = some (some c)) :
    Dealt d log :=
  dealt_of_seen ((valid_ofLog p log).committed _ c h).1

/-! ## complaints -/

/-- an entry that is taken in as a rebuttal of dealer `d`, which clears it of the complaint of `j` -/
def Clears (p : Params) (d j : Index) (v : View G) (e : Envelope) : Prop :=
  ∃ (b : Rebuttal F) (out : View G × List Notice),
    (e.payload : Except Violation (Payload F G)) = .ok (.rebuttal b) ∧ b.accuser = j ∧ e.sender = d ∧
      e.sender.toNat < p.n ∧ v.step p e.sender (.rebuttal b) = .ok out

/-- a share that opens the commitments clears its dealer of a complaint -/
theorem clears_of_opens {b : Rebuttal F} {c : Poly G}
    (hpayload : (e.payload : Except Violation (Payload F G)) = .ok (.rebuttal b)) (hlt : e.sender.toNat < p.n)
    (haccuser : b.accuser.toNat < p.n)
    (hcomplaint : v.verdicts.cell b.accuser.toNat e.sender.toNat = some .complaint)
    (hc : v.commitments[e.sender.toNat]? = some (some c)) (hcorrect : shareCorrect b.share b.accuser c = true)
    (hindex : b.share.index = b.accuser) : v.Clears p e.sender b.accuser e := by
  obtain ⟨v', htake⟩ : ∃ v', v.takeRebuttal p e.sender b = .ok v' :=
    ⟨_, takeRebuttal_eq_ok.2 ⟨haccuser, hcomplaint, ⟨c, hc, hcorrect⟩, hindex, rfl⟩⟩
  exact ⟨b, (v', []), hpayload, rfl, rfl, hlt, step_rebuttal_eq_ok.2 ⟨htake, rfl⟩⟩

/-- what is cleared was a complaint before and is a success afterwards -/
theorem Clears.cells (h : v.Clears p d j e) : v.verdicts.cell j.toNat d.toNat = some .complaint ∧
    (v.after p e).verdicts.cell j.toNat d.toNat = some .success := by
  obtain ⟨b, ⟨v', notices⟩, hpayload, rfl, rfl, hlt, hstep⟩ := h
  obtain ⟨hw, -⟩ := step_rebuttal_eq_ok.1 hstep
  obtain ⟨-, hcell, -, -, rfl⟩ := takeRebuttal_eq_ok.1 hw
  rw [after_of_step hpayload hlt hstep, tryQual_verdicts]
  exact ⟨hcell, StatusMatrix.cell_set_self hcell⟩

/-- an accusation is the first vector of its sender, and a complaint from then on -/
theorem cells_of_accuser? (haccuser : v.accuser? p d e = some j) : v.verdicts.row? j.toNat = none ∧
    (v.after p e).verdicts.cell j.toNat d.toNat = some .complaint := by
  obtain ⟨rfl, hlt, statuses, ⟨v', notices⟩, hpayload, hmark, hstep⟩ := accuser?_eq_some.1 haccuser
  obtain ⟨hw, -⟩ := step_verification_eq_ok.1 hstep
  obtain ⟨hlen, hnone, -, rfl⟩ := takeVerification_eq_ok.1 hw
  rw [after_of_step hpayload hlt hstep, tryQual_verdicts, StatusMatrix.cell_eq_some]
  exact ⟨hnone, statuses, by rw [StatusMatrix.row?_setRow hlen, if_pos rfl], hmark⟩

/-- the first vector of a shareholder is taken in, and accuses whom it marks -/
theorem accuser?_of_first (h : Valid p v) {statuses : List (Option Status)}
    (hpayload : (e.payload : Except Violation (Payload F G)) = .ok (.verification statuses))
    (hlt : e.sender.toNat < p.n) (hlen : statuses.length = p.n) (hnone : v.verdicts.row? e.sender.toNat = none)
    (hmark : statuses[d.toNat]? = some (some .complaint)) : v.accuser? p d e = some e.sender := by
  obtain ⟨v', htake⟩ : ∃ v', v.takeVerification p e.sender statuses = .ok v' :=
    ⟨_, takeVerification_eq_ok.2 ⟨h.rows_length.symm ▸ hlt, hnone, hlen, rfl⟩⟩
  exact accuser?_eq_some.2 ⟨rfl, hlt, statuses, (v', []), hpayload, hmark, step_verification_eq_ok.2 ⟨htake, rfl⟩⟩

/-- **One entry** makes a complaint if it accuses, and keeps one unless it clears it. -/
theorem complaint_after (h : Valid p v) (e : Envelope) :
    (v.after p e).verdicts.cell j.toNat d.toNat = some .complaint ↔
      v.accuser? p d e = some j ∨ v.verdicts.cell j.toNat d.toNat = some .complaint ∧ ¬ v.Clears p d j e := by
  constructor
  · intro hc
    have hkept : ¬ v.Clears p d j e := fun hclears => by
      rw [hclears.cells.2] at hc
      cases hc
    rcases verdicts_after h e with hsame | ⟨statuses, notices, hpayload, hlt, hstep, -, hrows⟩ |
      ⟨b, notices, hpayload, hlt, hstep, -, hset⟩
    · exact Or.inr ⟨hsame ▸ hc, hkept⟩
    · rw [hrows] at hc
      obtain ⟨cells, hrow, hcell⟩ := StatusMatrix.cell_eq_some.1 hc
      rw [StatusMatrix.row?_setRow (h.rows_length ▸ hlt)] at hrow
      split_ifs at hrow with hj
      · obtain rfl := Option.some.inj hrow
        exact Or.inl (accuser?_eq_some.2 ⟨(UInt32.toNat_inj.1 hj).symm, hlt, statuses, _, hpayload, hcell, hstep⟩)
      · exact Or.inr ⟨StatusMatrix.cell_eq_some.2 ⟨cells, hrow, hcell⟩, hkept⟩
    · have hat : ¬ (j.toNat = b.accuser.toNat ∧ d.toNat = e.sender.toNat) := fun ⟨hj, hd⟩ =>
        hkept ⟨b, _, hpayload, (UInt32.toNat_inj.1 hj).symm, (UInt32.toNat_inj.1 hd).symm, hlt, hstep⟩
      rw [hset, StatusMatrix.cell_set_of_ne hat] at hc
      exact Or.inr ⟨hc, hkept⟩
  · rintro (haccuser | ⟨hc, hkept⟩)
    · exact (cells_of_accuser? haccuser).2
    · rcases verdicts_after h e with hsame | ⟨statuses, notices, -, hlt, -, hnone, hrows⟩ |
        ⟨b, notices, hpayload, hlt, hstep, -, hset⟩
      · rw [hsame, hc]
      · obtain ⟨cells, hrow, hcell⟩ := StatusMatrix.cell_eq_some.1 hc
        have hne : j.toNat ≠ e.sender.toNat := by
          intro heq
          rw [heq, hnone] at hrow
          cases hrow
        rw [hrows, StatusMatrix.cell_eq_some]
        exact ⟨cells, by rw [StatusMatrix.row?_setRow (h.rows_length ▸ hlt), if_neg hne, hrow], hcell⟩
      · have hat : ¬ (j.toNat = b.accuser.toNat ∧ d.toNat = e.sender.toNat) := fun ⟨hj, hd⟩ =>
          hkept ⟨b, _, hpayload, (UInt32.toNat_inj.1 hj).symm, (UInt32.toNat_inj.1 hd).symm, hlt, hstep⟩
        rw [hset, StatusMatrix.cell_set_of_ne hat, hc]

/-- what an entry has cleared stays cleared -/
theorem success_of_clears {before : List Envelope} (hpre : before ++ [e] <+: log)
    (h : (ofLog p before : View G).Clears p d j e) :
    (ofLog p log : View G).verdicts.cell j.toNat d.toNat = some .success := by
  refine (settles_ofLog p hpre).successes.cell _ _ ?_
  rw [ofLog_concat]
  exact h.cells.2

/-- **A complaint stands** exactly if the dealer is accused and no entry clears it. -/
theorem complaint_iff : (ofLog p log : View G).verdicts.cell j.toNat d.toNat = some .complaint ↔
    j ∈ (initial p.n : View G).accusers p d log ∧
      ∀ before e, before ++ [e] <+: log → ¬ (ofLog p before : View G).Clears p d j e := by
  induction log using List.reverseRecOn with
  | nil =>
    simp [ofLog, along, initial, StatusMatrix.empty, StatusMatrix.cell_eq_some, StatusMatrix.row?_eq_some,
      List.getElem?_replicate, accusers]
  | append_singleton log e ih =>
    rw [ofLog_concat, complaint_after (valid_ofLog p log) e, accusers_concat, List.mem_append, Option.mem_toList]
    change (ofLog p log : View G).accuser? p d e = some j ∨ _ ↔
      (_ ∨ (ofLog p log : View G).accuser? p d e = some j) ∧ _
    constructor
    · rintro (haccuser | ⟨hc, hkept⟩)
      · refine ⟨Or.inr haccuser, fun before e' hpre hclears => ?_⟩
        obtain ⟨hnone, hc⟩ := cells_of_accuser? haccuser
        rcases concat_prefix_concat.1 hpre with ⟨rfl, rfl⟩ | hpre
        · have hsuccess := hclears.cells.2
          rw [hc] at hsuccess
          cases hsuccess
        · obtain ⟨cells, hrow, -⟩ := StatusMatrix.cell_eq_some.1 (success_of_clears hpre hclears)
          rw [hnone] at hrow
          cases hrow
      · obtain ⟨haccused, hnever⟩ := ih.1 hc
        refine ⟨Or.inl haccused, fun before e' hpre => ?_⟩
        rcases concat_prefix_concat.1 hpre with ⟨rfl, rfl⟩ | hpre
        · exact hkept
        · exact hnever before e' hpre
    · rintro ⟨haccused | haccuser, hnever⟩
      · refine Or.inr ⟨ih.2 ⟨haccused, fun before e' hpre => ?_⟩, hnever log e (List.prefix_refl _)⟩
        exact hnever before e' (hpre.trans (List.prefix_append _ _))
      · exact Or.inl haccuser

/-! ## rows -/

/-- a row is a vector of its shareholder that was taken in -/
theorem exists_vector {row : List (Option Status)} (h : (ofLog p log : View G).verdicts.row? j.toNat = some row) :
    ∃ before e statuses out, before ++ [e] <+: log ∧ e.sender = j ∧ e.sender.toNat < p.n ∧
      (e.payload : Except Violation (Payload F G)) = .ok (.verification statuses) ∧
        (ofLog p before : View G).step p e.sender (.verification statuses : Payload F G) = .ok out := by
  induction log using List.reverseRecOn generalizing row with
  | nil => simp [ofLog, along, initial, StatusMatrix.empty, StatusMatrix.row?_eq_some, List.getElem?_replicate] at h
  | append_singleton log e ih =>
    have hearlier : ∀ {row : List (Option Status)}, (ofLog p log : View G).verdicts.row? j.toNat = some row →
        ∃ before e' statuses out, before ++ [e'] <+: log ++ [e] ∧ e'.sender = j ∧ e'.sender.toNat < p.n ∧
          (e'.payload : Except Violation (Payload F G)) = .ok (.verification statuses) ∧
            (ofLog p before : View G).step p e'.sender (.verification statuses : Payload F G) = .ok out := by
      intro row hrow
      obtain ⟨before, e', statuses, out, hpre, hrest⟩ := ih hrow
      exact ⟨before, e', statuses, out, hpre.trans (List.prefix_append _ _), hrest⟩
    have hvalid : Valid p (ofLog p log : View G) := valid_ofLog p log
    rw [ofLog_concat] at h
    rcases verdicts_after hvalid e with hsame | ⟨statuses, notices, hpayload, hlt, hstep, -, hrows⟩ |
      ⟨b, notices, -, -, -, -, hset⟩
    · exact hearlier (hsame ▸ h)
    · rw [hrows, StatusMatrix.row?_setRow (hvalid.rows_length ▸ hlt)] at h
      split_ifs at h with hj
      · exact ⟨log, e, statuses, _, List.prefix_refl _, (UInt32.toNat_inj.1 hj).symm, hlt, hpayload, hstep⟩
      · exact hearlier h
    · rw [hset, StatusMatrix.row?_set] at h
      split_ifs at h
      · obtain ⟨row', hrow', -⟩ := Option.map_eq_some_iff.1 h
        exact hearlier hrow'
      · exact hearlier h

end View

end DistributedKey
