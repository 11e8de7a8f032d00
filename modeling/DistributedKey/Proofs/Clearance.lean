/-
Which complaints about an honest dealer stand once everything it answered is on the log.

The dealer answers an accusation once, when it reads it, whether it has dealt by then or not. Readers refuse the answer
as long as they do not know the dealer's commitments, and it is never repeated.

- `committed_of_dealt`: whoever has read the dealer's contribution holds its commitments.
- `exists_clears_iff`: an answer clears the dealer exactly if the contribution stands before it.
- `complaint_stands_iff`: so a complaint about the dealer stands exactly if every answer to it came before the
  contribution. A shareholder that follows the protocol complains about dealers that have dealt, so that its own
  complaint is always cleared, and it then holds what it was dealt.
- `complaint_stands_late`: an honest dealer that is slow to deal keeps a complaint for good.
-/
import DistributedKey.Proofs.Announcement
import DistributedKey.Proofs.Complaints
import DistributedKey.Proofs.Dealing
import DistributedKey.Proofs.Residue

namespace DistributedKey

open Checked

variable {F G : Type}
variable [Field F] [AddCommGroup G] [Module F G] [Suite F G] [Wire F] [Wire G] [Sampled F] [DecidableEq F]
  [DecidableEq G]

/-! ## what an honest dealer posts -/

namespace Shareholder

/-- the entry by which a dealer answers an accuser -/
def answer (s : Shareholder F G) (accuser : Index) : Envelope :=
  (Payload.rebuttal (s.reveal accuser) : Payload F G).toEnvelope s.index

end Shareholder

namespace History

variable {s₀ s : Shareholder F G} {log : List Envelope} {out : List (Payload F G)} {c : Contribution G}

/-- whatever an honest dealer deals carries its commitments and can be written down -/
theorem contribution_mem [LawfulWire F] (h₀ : s₀.Upright) (hn : s₀.params.n < 2 ^ 64) (h : History s₀ log s out)
    (hc : .contribution c ∈ out) :
    c.commitments = s₀.commitments ∧ (Payload.contribution c : Payload F G).Fits := by
  induction h with
  | start => exact absurd hc List.not_mem_nil
  | @deal log s out h ih =>
    rcases List.mem_append.1 hc with hc | hc
    · exact ih hc
    · have hidentity := h.identity h₀.fresh.valid
      have hbehavior : s.behavior = .honest := (congrArg Identity.behavior hidentity).trans h₀.behavior
      rcases hcontributed : s.contributed with _ | _
      · rw [Shareholder.contribute_honest hbehavior hcontributed] at hc
        obtain rfl := Payload.contribution.inj (Option.some.inj (Option.mem_toList.1 hc)).symm
        have hf1 : s.f1 = s₀.f1 := congrArg Identity.f1 hidentity
        have hf2 : s.f2 = s₀.f2 := congrArg Identity.f2 hidentity
        have hcommitments : s.commitments = s₀.commitments := by
          rw [Shareholder.commitments_of_honest hbehavior, Shareholder.commitments_of_honest h₀.behavior, hf1, hf2]
        have hlength : s.commitments.length < 2 ^ 64 := by
          rw [hcommitments, h₀.length_commitments]
          exact s₀.group.threshold.toNat_lt
        have hparticipants : s.group.participants.length < 2 ^ 64 := by
          have hgroup : s.group = s₀.group := congrArg Identity.group hidentity
          rw [hgroup]
          exact hn
        exact ⟨hcommitments, Shareholder.fits_contribution hlength _ _ hparticipants _⟩
      · rw [Shareholder.contribute_none (Or.inl hcontributed)] at hc
        cases hc
  | @read log s out e r h hr ih =>
    rcases List.mem_append.1 hc with hc | hc
    · exact ih hc
    · exact absurd rfl (((h.valid h₀.fresh.valid).delivered_of_deliver hr).no_contribution _ hc)

/-- whoever accuses an honest dealer is answered -/
theorem rebuttal_mem (h₀ : s₀.Upright) (h : History s₀ log s out) {j : Index}
    (hj : j ∈ (View.initial s₀.params.n : View G).accusers s₀.params s₀.index log) : .rebuttal (s₀.reveal j) ∈ out := by
  have hspeaks : s₀.behavior ≠ .silent := by
    rw [h₀.behavior]
    exact Behavior.noConfusion
  rw [← mem_rebuttals, h.rebuttals_eq h₀.fresh.valid, if_neg hspeaks, h₀.fresh.view]
  exact List.mem_map_of_mem hj

/-- a shareholder judges only those who have dealt -/
theorem dealt_of_judged {d : Index} {status : Status} {statuses : List (Option Status)} (h₀ : s₀.Fresh)
    (h : History s₀ log s out) (hout : .verification statuses ∈ out)
    (hjudged : statuses[d.toNat]? = some (some status)) : Dealt d log := by
  obtain ⟨before, e, t, out', r, hpre, ht, hr, hannounced⟩ := h.exists_delivery hout (by simp [Payload.opcode])
  obtain ⟨rfl, -⟩ := ((ht.valid h₀.valid).delivered_of_deliver hr).announced hannounced
  have hseen := (((ht.read hr).sound h₀).judged d.toNat).1 ⟨status, hjudged⟩
  rw [(ht.read hr).view_eq_ofLog h₀] at hseen
  exact (View.dealt_of_seen hseen).mono hpre

end History

/-! ## complaints of those who follow the protocol -/

namespace Authentic

variable {members : List (Shareholder F G)} {log before : List Envelope} {e : Envelope} {c₀ : Shareholder F G}
  {d : Index}

variable (hlog : Authentic members log) (hc₀ : c₀ ∈ members) (hfresh : c₀.Fresh) (hn : c₀.params.n < 2 ^ 64)
include hlog hc₀ hfresh hn

/-- its vector is taken in, because it has announced no other -/
theorem accuses_of_complains (hcomplains : c₀.index ∈ complainants F G c₀.params d log) :
    c₀.index ∈ (View.initial c₀.params.n : View G).accusers c₀.params d log := by
  obtain ⟨e, he, hsender, hlt, statuses, hpayload, hmark⟩ := mem_complainants.1 hcomplains
  obtain ⟨before, later, rfl⟩ := List.append_of_mem he
  have hpre : before ++ [e] <+: before ++ e :: later := ⟨later, by simp⟩
  obtain ⟨read, s, out, hread, hs, hout⟩ := hlog.vector hc₀ hfresh hn hpre hsender hpayload
  have hread := hread.trans ((List.prefix_append _ _).trans hpre)
  have hlen := (hs.announced hfresh hout).1
  rcases hrow : (View.ofLog c₀.params before : View G).verdicts.row? c₀.index.toNat with _ | row
  · refine View.mem_accusers.2 ⟨before, e, hpre, ?_⟩
    rw [← hsender] at hrow ⊢
    exact View.accuser?_of_first (View.valid_ofLog c₀.params before) hpayload hlt hlen hrow hmark
  · obtain ⟨before', e', statuses', taken, hpre', hsender', hlt', hpayload', hstep⟩ := View.exists_vector hrow
    have hpre'' := hpre'.trans ((List.prefix_append _ _).trans hpre)
    obtain ⟨read', s', out', hread', hs', hout'⟩ := hlog.vector hc₀ hfresh hn hpre'' hsender' hpayload'
    have hread'' := hread'.trans ((List.prefix_append _ _).trans hpre'')
    obtain rfl := hs.announced_once hfresh.valid hs' hread hread'' hout hout'
    refine View.mem_accusers.2 ⟨before', e', hpre'', View.accuser?_eq_some.2 ?_⟩
    exact ⟨hsender', hlt', statuses, taken, hpayload', hmark, hstep⟩

/-- it complains about those who have dealt -/
theorem dealt_of_accuser? {p : Params} {v : View G} (hpre : before ++ [e] <+: log)
    (haccuser : v.accuser? p d e = some c₀.index) : Dealt d before := by
  obtain ⟨hsender, -, statuses, -, hpayload, hmark, -⟩ := View.accuser?_eq_some.1 haccuser
  obtain ⟨read, s, out, hread, hs, hout⟩ := hlog.vector hc₀ hfresh hn hpre hsender hpayload
  exact (hs.dealt_of_judged hfresh hout hmark).mono hread

end Authentic

/-! ## what becomes of its answers -/

section

variable [LawfulWire F] [LawfulWire G] {members : List (Shareholder F G)} {log read before : List Envelope}
  {e : Envelope} {d₀ : Shareholder F G} {j : Index} {b : Rebuttal F}

variable (hlog : Authentic members log) (hd₀ : d₀ ∈ members) (hupright : d₀.Upright) (hn : d₀.params.n < 2 ^ 64)
include hlog hd₀ hupright hn

/-- **The commitments of an honest dealer** are known to whoever has read its contribution. -/
theorem committed_of_dealt (hread : read <+: log) (hdealt : Dealt d₀.index read) :
    (View.ofLog d₀.params read : View G).commitments[d₀.index.toNat]? = some (some d₀.commitments) := by
  induction read using List.reverseRecOn with
  | nil => simp [Dealt] at hdealt
  | append_singleton read e ih =>
    by_cases hearlier : Dealt d₀.index read
    · have hknown := ih ((List.prefix_append read [e]).trans hread) hearlier
      exact (View.settles_ofLog d₀.params (List.prefix_append read [e])).commitments _ _ hknown
    · -- the first contribution of the dealer, which the view takes in as it was dealt
      obtain ⟨hsender, hkind⟩ := (dealt_concat.1 hdealt).resolve_left hearlier
      obtain ⟨_, s, out, -, hs, payload, hout, rfl⟩ := hlog read e hread d₀ hd₀ hsender
      obtain ⟨c, rfl⟩ := Payload.exists_contribution (Opcode.code_inj.1 hkind)
      obtain ⟨hcommitments, hfits⟩ := hs.contribution_mem hupright hn hout
      have hvalid : View.Valid d₀.params (View.ofLog d₀.params read : View G) := View.valid_ofLog _ _
      have hlt := hupright.fresh.valid.index_lt
      have hunseen : (View.ofLog d₀.params read : View G).seen[d₀.index.toNat]? = some false := by
        have hget := List.getElem?_eq_getElem (hvalid.seen_length.symm ▸ hlt)
        rw [hget]
        refine congrArg some (Bool.eq_false_iff.2 fun hseen => hearlier ?_)
        exact View.dealt_of_seen (hget.trans (congrArg some hseen))
      have hpayload := Payload.payload_toEnvelope hfits d₀.index
      have hcheck := hupright.check
      rw [View.ofLog_concat, View.commitments_after hvalid hpayload hlt hunseen, hcommitments, View.keepCommitments,
        hcheck]
      exact List.getElem?_set_self (hvalid.commitments_length.symm ▸ hlt)

omit hn in
/-- a rebuttal in the name of an honest dealer answers an accusation that stands before it -/
theorem eq_answer (hpre : before ++ [e] <+: log) (hsender : e.sender = d₀.index)
    (hpayload : (e.payload : Except Violation (Payload F G)) = .ok (.rebuttal b)) :
    e = d₀.answer b.accuser ∧ b = d₀.reveal b.accuser ∧
      b.accuser ∈ (View.initial d₀.params.n : View G).accusers d₀.params d₀.index before := by
  obtain ⟨read, s, out, hread, hs, payload, hout, rfl⟩ := hlog before e hpre d₀ hd₀ hsender
  obtain ⟨b', rfl⟩ := Payload.exists_rebuttal (Payload.opcode_of_payload hpayload)
  rw [payload_rebuttal] at hpayload
  obtain rfl := Payload.rebuttal.inj (Except.ok.inj hpayload)
  obtain ⟨haccused, hreveal⟩ := hs.mem_rebuttal hupright.fresh.valid hout
  rw [hupright.fresh.view] at haccused
  exact ⟨by rw [Shareholder.answer, ← hreveal], hreveal, View.accusers_mono hread haccused⟩

/-- **An answer clears the dealer** exactly if the contribution stands before it. -/
theorem exists_clears_iff (hread : read <+: log) :
    (∃ before e, before ++ [e] <+: read ∧
      (View.ofLog d₀.params before : View G).Clears d₀.params d₀.index j e) ↔
    ∃ before, before ++ [d₀.answer j] <+: read ∧ Dealt d₀.index before := by
  constructor
  · rintro ⟨before, e, hpre, b, ⟨v', notices⟩, hpayload, rfl, hsender, -, hstep⟩
    obtain ⟨rfl, -, -⟩ := eq_answer hlog hd₀ hupright (hpre.trans hread) hsender hpayload
    obtain ⟨-, -, ⟨c, hc, -⟩, -, -⟩ := View.takeRebuttal_eq_ok.1 (View.step_rebuttal_eq_ok.1 hstep).1
    exact ⟨before, hpre, View.dealt_of_committed hc⟩
  · rintro ⟨before, hpre, hdealt⟩
    have hbefore : before <+: log := (List.prefix_append _ _).trans (hpre.trans hread)
    have hpayload : (d₀.answer j).payload = .ok (.rebuttal (d₀.reveal j) : Payload F G) :=
      payload_rebuttal _ _
    obtain ⟨-, -, haccused⟩ := eq_answer hlog hd₀ hupright (hpre.trans hread) rfl hpayload
    by_cases hcomplaint : (View.ofLog d₀.params before : View G).verdicts.cell j.toNat d₀.index.toNat = some .complaint
    · have hj : j.toNat < d₀.params.n := lt_of_mem_complainants (View.mem_complainants_of_mem_accusers haccused)
      have hcorrect : View.shareCorrect (d₀.reveal j).share j (d₀.commitments : Poly G) = true :=
        decide_eq_true (Shareholder.eval_commitments hupright.behavior _)
      have hknown := committed_of_dealt hlog hd₀ hupright hn hbefore hdealt
      exact ⟨before, d₀.answer j, hpre,
        View.clears_of_opens hpayload hupright.fresh.valid.index_lt hj hcomplaint hknown hcorrect rfl⟩
    · -- the complaint is gone by then, because an earlier answer has cleared it
      rw [View.complaint_iff, not_and] at hcomplaint
      have hcleared := hcomplaint haccused
      push Not at hcleared
      obtain ⟨before', e, hpre', hclears⟩ := hcleared
      exact ⟨before', e, hpre'.trans ((List.prefix_append _ _).trans hpre), hclears⟩

/-- a complaint about an honest dealer stands if every answer to it came before the contribution -/
theorem complaint_iff_answers (hread : read <+: log) :
    (View.ofLog d₀.params read : View G).verdicts.cell j.toNat d₀.index.toNat = some .complaint ↔
      j ∈ (View.initial d₀.params.n : View G).accusers d₀.params d₀.index read ∧
        ∀ before, before ++ [d₀.answer j] <+: read → ¬ Dealt d₀.index before := by
  rw [View.complaint_iff]
  refine and_congr_right fun _ => ?_
  have hclears := not_congr (exists_clears_iff hlog hd₀ hupright hn (j := j) hread)
  push Not at hclears
  exact hclears

variable {c₀ d : Shareholder F G} {out : List (Payload F G)}

/-- **The complaint of a shareholder that follows the protocol** is cleared, and it holds what it was dealt. -/
theorem complaint_cleared (hc₀ : c₀ ∈ members) (hfresh : c₀.Fresh) (hparams : c₀.params = d₀.params)
    (hd : History d₀ log d out) (hposted : ∀ y ∈ out, y.toEnvelope d₀.index ∈ log)
    (hcomplains : c₀.index ∈ complainants F G d₀.params d₀.index log) :
    (View.ofLog d₀.params log : View G).verdicts.cell c₀.index.toNat d₀.index.toNat = some .success ∧
      ∀ c out', History c₀ log c out' →
        c.shares[d₀.index.toNat]? = some (some (Shareholder.pairFor d₀.f1 d₀.f2 c₀.index)) := by
  have hn' : c₀.params.n < 2 ^ 64 := hparams ▸ hn
  rw [← hparams] at hcomplains
  have haccused := hlog.accuses_of_complains hc₀ hfresh hn' hcomplains
  rw [hparams] at haccused
  -- an answer stands behind the complaint, and the complaint behind the contribution
  have hanswer : d₀.answer c₀.index ∈ log := hposted _ (hd.rebuttal_mem hupright haccused)
  obtain ⟨before, later, hsplit⟩ := List.append_of_mem hanswer
  have hpre : before ++ [d₀.answer c₀.index] <+: log := ⟨later, by simp [hsplit]⟩
  obtain ⟨-, -, haccused'⟩ := eq_answer hlog hd₀ hupright hpre rfl (payload_rebuttal _ _)
  obtain ⟨before', e', hpre', haccuser⟩ := View.mem_accusers.1 haccused'
  have hbefore : before' <+: before := (List.prefix_append _ _).trans hpre'
  have hdealt := hlog.dealt_of_accuser? hc₀ hfresh hn' (hpre'.trans ((List.prefix_append _ _).trans hpre)) haccuser
  obtain ⟨seen, e, hseen, hclears⟩ :=
    (exists_clears_iff hlog hd₀ hupright hn (List.prefix_refl log)).2 ⟨before, hpre, hdealt.mono hbefore⟩
  refine ⟨View.success_of_clears hseen hclears, fun c out' hc => ?_⟩
  -- the accuser takes the share over when it reads that answer, and keeps it from then on
  have hsuccess := hclears.cells.2
  obtain ⟨b, ⟨view, notices⟩, hpayload, haccuser, hsender, hlt, hstep⟩ := hclears
  obtain ⟨-, hreveal, -⟩ := eq_answer hlog hd₀ hupright hseen hsender hpayload
  obtain ⟨s, out₀, hs⟩ := History.exists_of_log hfresh.valid seen
  obtain ⟨r, hr, hdelivered⟩ := (hs.valid hfresh.valid).delivered e
  rw [← hparams, ← hs.view_eq_ofLog hfresh, ← hs.params_eq hfresh.valid] at hstep
  have hadopted := (hdelivered.adopted hpayload (by rwa [hs.params_eq hfresh.valid, hparams]) hstep
    (haccuser.trans (hs.index_eq hfresh.valid).symm) (congrArg UInt32.toNat hsender)).2
  rw [hreveal, haccuser] at hadopted
  refine (hs.read hr).share_kept hfresh hc hseen hadopted ?_
  rw [(hs.read hr).view_eq_ofLog hfresh, hparams, View.ofLog_concat]
  exact hsuccess

end

/-- **An honest dealer that has answered.** Once an honest dealer has read an authentic log, and all that it returned is
on it, every accuser is answered there; a complaint about the dealer stands exactly if every answer to it came before the
dealer's contribution; and the complaint of a shareholder that follows the protocol is cleared, and it holds what it was
dealt. -/
theorem complaint_stands_iff [LawfulWire F] [LawfulWire G] {p : Params} {members : List (Shareholder F G)}
    {log : List Envelope} (hmembers : ∀ s₀ ∈ members, s₀.Fresh ∧ s₀.params = p) (hn : p.n < 2 ^ 64)
    (hlog : Authentic members log) {d₀ d : Shareholder F G} {out : List (Payload F G)} (hd₀ : d₀ ∈ members)
    (hupright : d₀.Upright) (hd : History d₀ log d out) (hposted : ∀ y ∈ out, y.toEnvelope d₀.index ∈ log) :
    (∀ j ∈ (View.initial p.n : View G).accusers p d₀.index log, d₀.answer j ∈ log) ∧
      (∀ (t₀ t : Shareholder F G) (out' : List (Payload F G)), t₀.Fresh → t₀.params = p → History t₀ log t out' →
        ∀ j : Index, t.view.verdicts.get j d₀.index = some .complaint ↔
          j ∈ (View.initial p.n : View G).accusers p d₀.index log ∧
            ∀ before, before ++ [d₀.answer j] <+: log → ¬ Dealt d₀.index before) ∧
      ∀ c₀ ∈ members, c₀.index ∈ complainants F G p d₀.index log → ∀ c out', History c₀ log c out' →
        c.view.verdicts.get c₀.index d₀.index = some .success ∧
          c.shares[d₀.index.toNat]? = some (some (Shareholder.pairFor d₀.f1 d₀.f2 c₀.index)) := by
  obtain ⟨-, rfl⟩ := hmembers d₀ hd₀
  refine ⟨fun j hj => hposted _ (hd.rebuttal_mem hupright hj), fun t₀ t out' ht₀ hparams ht j => ?_, ?_⟩
  · rw [ht.view_eq_ofLog ht₀, hparams, StatusMatrix.get_eq_cell]
    exact complaint_iff_answers hlog hd₀ hupright hn (List.prefix_refl log)
  · intro c₀ hc₀ hcomplains c out' hc
    obtain ⟨hfresh, hparams⟩ := hmembers c₀ hc₀
    obtain ⟨hsuccess, hshare⟩ := complaint_cleared hlog hd₀ hupright hn hc₀ hfresh hparams hd hposted hcomplains
    refine ⟨?_, hshare c out' hc⟩
    rw [hc.view_eq_ofLog hfresh, hparams, StatusMatrix.get_eq_cell]
    exact hsuccess

/-! ## two shareholders -/

/-- the first of two shareholders of private key `1`; it deals the secret `1` -/
def firstOfTwo : Shareholder (ZMod 11) (ZMod 11) :=
  .started 0 1 (Shareholder.pairGroup 1 1) .honest (.ofSeed []) ⟨[1]⟩ ⟨[0]⟩

/-- the other one marks it as a complaint -/
def complaintOfTwo : Payload (ZMod 11) (ZMod 11) := .verification [some .complaint, none]

theorem upright_firstOfTwo : firstOfTwo.Upright where
  fresh := Shareholder.fresh_started (Shareholder.validate_pairGroup 1 1) rfl rfl rfl
  behavior := rfl
  proper := by decide

theorem payload_complaintOfTwo : (complaintOfTwo.toEnvelope 1).payload = .ok complaintOfTwo := by
  have hfits : complaintOfTwo.Fits := by
    change (2 : Nat) < 2 ^ 64
    norm_num
  exact Payload.payload_toEnvelope hfits 1

/-- the first is the only dealer, and nobody but the second announces a vector -/
structure Sparse (log : List Envelope) : Prop where
  dealers : ∀ e ∈ log, e.opcode = Opcode.contribution.code → e.sender = 0
  vectors : ∀ e ∈ log, e.opcode = Opcode.verification.code → e.sender = 1

section

variable {log : List Envelope} {s : Shareholder (ZMod 11) (ZMod 11)} {out : List (Payload (ZMod 11) (ZMod 11))}

/-- one vector is not enough to freeze QUAL -/
theorem Sparse.qual (h : Sparse log) : (View.ofLog firstOfTwo.params log : View (ZMod 11)).qual = none := by
  have hvalid : View.Valid firstOfTwo.params (View.ofLog firstOfTwo.params log : View (ZMod 11)) := View.valid_ofLog _ _
  rcases Option.eq_none_or_eq_some (View.ofLog firstOfTwo.params log : View (ZMod 11)).qual with hnone | ⟨q, hq⟩
  · exact hnone
  · obtain ⟨d, hd⟩ := List.exists_mem_of_length_pos (l := q.elems) (by
      rw [show q.elems.length = firstOfTwo.params.f + 1 from hvalid.qual_size hq]
      exact Nat.succ_pos _)
    obtain ⟨-, hvotes⟩ := hvalid.qual_endorsed hq hd
    have hone : (View.ofLog firstOfTwo.params log : View (ZMod 11)).verdicts.endorsers d.toNat ⊆ {1} := by
      intro j hj
      obtain ⟨row, hrow, -⟩ := StatusMatrix.cell_eq_some.1 (StatusMatrix.mem_endorsers.1 hj)
      have hlt : j < 2 := by
        have hlt := (List.getElem?_eq_some_iff.1 (StatusMatrix.row?_eq_some.1 hrow)).1
        rwa [hvalid.rows_length] at hlt
      have hword : (UInt32.ofNat j).toNat = j := Nat.mod_eq_of_lt (hlt.trans (by norm_num))
      rw [← hword] at hrow
      obtain ⟨before, e, statuses, -, hpre, hsender, -, hpayload, -⟩ := View.exists_vector hrow
      have he : e ∈ log := hpre.subset (List.mem_append_right _ (List.mem_singleton_self e))
      rw [Finset.mem_singleton, ← hword, ← hsender, h.vectors e he (Envelope.opcode_of_payload hpayload)]
      rfl
    have hcard := Finset.card_le_card hone
    rw [Finset.card_singleton] at hcard
    have hk : firstOfTwo.params.k = 1 := rfl
    omega

/-- so all that the dealer hands out besides contributions is its answer -/
theorem Sparse.handed_out (h : Sparse log) (hs : History firstOfTwo log s out) : ∀ y ∈ out, y.opcode ≠ .contribution →
    y = .rebuttal (firstOfTwo.reveal 1) := by
  have hfresh := upright_firstOfTwo.fresh
  have hview : s.view = View.ofLog firstOfTwo.params log := hs.view_eq_ofLog hfresh
  have hproves : ∀ y ∈ out, ¬ (y.opcode = .proof ∨ y.opcode = .bulkProof) := by
    intro y hy hkind
    have hqual := hs.qual_of_proves hfresh.valid hy hkind
    rw [hview, h.qual] at hqual
    cases hqual
  intro y hy hkind
  cases y with
  | contribution c => exact absurd rfl hkind
  | verification statuses =>
    -- two successes are needed, and the other shareholder has not dealt
    obtain ⟨hlen, hcount, hsuccess⟩ := hs.announced hfresh hy
    have hlen : statuses.length = 2 := hlen
    have hcount : 2 ≤ statuses.count (some .success) := hcount
    have hfull : statuses.count (some .success) = statuses.length := by
      have := List.count_le_length (a := some Status.success) (l := statuses)
      omega
    have hmark : statuses[(1 : Index).toNat]? = some (some .success) := by
      have hlt : (1 : Index).toNat < statuses.length := hlen ▸ (by decide)
      have hall := List.count_eq_length.1 hfull
      rw [List.getElem?_eq_getElem hlt, ← hall _ (List.getElem_mem hlt)]
    obtain ⟨e, he, hsender, hopcode⟩ := hs.dealt_of_judged hfresh hy hmark
    rw [h.dealers e he hopcode] at hsender
    exact absurd hsender (by decide)
  | rebuttal b =>
    obtain ⟨haccused, hreveal⟩ := hs.mem_rebuttal hfresh.valid hy
    obtain ⟨before, e, hpre, haccuser⟩ := View.mem_accusers.1 haccused
    obtain ⟨hsender, -, statuses, -, hpayload, -⟩ := View.accuser?_eq_some.1 haccuser
    have he : e ∈ log := hpre.subset (List.mem_append_right _ (List.mem_singleton_self e))
    rw [hreveal, ← hsender, h.vectors e he (Envelope.opcode_of_payload hpayload)]
  | proof π => exact absurd (Or.inl rfl) (hproves _ hy)
  | bulkProof b => exact absurd (Or.inr rfl) (hproves _ hy)

/-- the complaint accuses where it is the first vector -/
theorem mem_accusers_complaintOfTwo (log : List Envelope) (h : ∀ e ∈ log, e.opcode = Opcode.contribution.code) :
    1 ∈ (View.initial 2 : View (ZMod 11)).accusers firstOfTwo.params 0 (log ++ [complaintOfTwo.toEnvelope 1]) := by
  refine View.mem_accusers.2 ⟨log, _, List.prefix_refl _, ?_⟩
  have hvalid : View.Valid firstOfTwo.params (View.ofLog firstOfTwo.params log : View (ZMod 11)) := View.valid_ofLog _ _
  have hnone : (View.ofLog firstOfTwo.params log : View (ZMod 11)).verdicts.row? (1 : Index).toNat = none := by
    rcases hrow : (View.ofLog firstOfTwo.params log : View (ZMod 11)).verdicts.row? (1 : Index).toNat with _ | row
    · rfl
    · obtain ⟨before, e, statuses, -, hpre, -, -, hpayload, -⟩ := View.exists_vector hrow
      have he : e ∈ log := hpre.subset (List.mem_append_right _ (List.mem_singleton_self e))
      cases Opcode.code_inj.1 ((h e he).symm.trans (Envelope.opcode_of_payload hpayload))
  exact View.accuser?_of_first hvalid payload_complaintOfTwo (by decide) rfl hnone rfl

/-- what the first hands out stands on every log that has its contribution and its answer -/
theorem Sparse.posted (h : Sparse log) {c : Contribution (ZMod 11)} (hs : History firstOfTwo log s out)
    (hcontributions : ∀ y ∈ out, y.opcode = .contribution → y = .contribution c) (hanswer : firstOfTwo.answer 1 ∈ log)
    (hcontribution : (Payload.contribution c : Payload (ZMod 11) (ZMod 11)).toEnvelope 0 ∈ log) :
    ∀ y ∈ out, y.toEnvelope firstOfTwo.index ∈ log := by
  intro y hy
  by_cases hkind : y.opcode = .contribution
  · rw [hcontributions y hy hkind]
    exact hcontribution
  · rw [h.handed_out hs y hy hkind]
    exact hanswer

/-- somebody else posts -/
theorem Authentic.concat_complaintOfTwo (h : Authentic [firstOfTwo] log) :
    Authentic [firstOfTwo] (log ++ [complaintOfTwo.toEnvelope 1]) := by
  refine h.concat fun s₀ hs₀ hsender => ?_
  obtain rfl := List.mem_singleton.1 hs₀
  exact absurd hsender (by decide)

/-- the first posts what it has returned on the way -/
theorem Authentic.concat_firstOfTwo (h : Authentic [firstOfTwo] log) (hs : History firstOfTwo log s out)
    {y : Payload (ZMod 11) (ZMod 11)} (hy : y ∈ out) : Authentic [firstOfTwo] (log ++ [y.toEnvelope 0]) := by
  refine h.concat fun s₀ hs₀ _ => ?_
  obtain rfl := List.mem_singleton.1 hs₀
  exact ⟨log, s, out, List.prefix_refl _, hs, y, hy, rfl⟩

theorem authentic_nil : Authentic [firstOfTwo] [] := fun _ _ hpre =>
  absurd (List.prefix_nil.1 hpre) (List.concat_ne_nil _ _)

end

/-- where the first deals before it is accused, its answer clears it -/
theorem complaint_stands_iff_prompt : ∃ (c : Contribution (ZMod 11)) (log : List Envelope)
    (d : Shareholder (ZMod 11) (ZMod 11)) (out : List (Payload (ZMod 11) (ZMod 11))),
      log = [(Payload.contribution c : Payload (ZMod 11) (ZMod 11)).toEnvelope 0, complaintOfTwo.toEnvelope 1,
        firstOfTwo.answer 1] ∧ History firstOfTwo log d out ∧
      1 ∈ (View.initial 2 : View (ZMod 11)).accusers ⟨2, 1, 0⟩ 0 log ∧ d.view.verdicts.get 1 0 ≠ some .complaint := by
  have hfresh := upright_firstOfTwo.fresh
  have hdeal : History firstOfTwo [] firstOfTwo.contribute.2 ([] ++ firstOfTwo.contribute.1.toList) :=
    History.start.deal
  rw [Shareholder.contribute_honest (s := firstOfTwo) rfl rfl] at hdeal
  generalize (⟨firstOfTwo.commitments, _⟩ : Contribution (ZMod 11)) = c at hdeal
  set entry : Envelope := (Payload.contribution c : Payload (ZMod 11) (ZMod 11)).toEnvelope 0 with hentry
  set log : List Envelope := [entry, complaintOfTwo.toEnvelope 1, firstOfTwo.answer 1] with hlog
  have haccused := mem_accusers_complaintOfTwo [entry] (by simp [hentry, Payload.toEnvelope, Payload.opcode])
  obtain ⟨s, out, hs⟩ := History.exists_of_log hfresh.valid [entry, complaintOfTwo.toEnvelope 1]
  have hauthentic : Authentic [firstOfTwo] log :=
    ((authentic_nil.concat_firstOfTwo hdeal (y := .contribution c) (by simp)).concat_complaintOfTwo).concat_firstOfTwo
      hs (hs.rebuttal_mem upright_firstOfTwo haccused)
  have hsparse : Sparse log := by
    constructor <;> simp [hlog, hentry, Payload.toEnvelope, Payload.opcode, Shareholder.answer] <;> decide
  obtain ⟨d, new, hd, -, hnew⟩ := hdeal.read_on hfresh.valid log
  have hcontributions : ∀ y ∈ [] ++ (some (Payload.contribution c)).toList ++ new, y.opcode = .contribution →
      y = .contribution c := by
    intro y hy hkind
    rcases List.mem_append.1 hy with hy | hy
    · simpa using hy
    · exact absurd hkind (hnew y hy)
  have hposted := hsparse.posted hd hcontributions (by simp [hlog]) (show entry ∈ log by simp [hlog])
  have haccusers : 1 ∈ (View.initial 2 : View (ZMod 11)).accusers ⟨2, 1, 0⟩ 0 log :=
    View.accusers_mono (List.prefix_append _ [firstOfTwo.answer 1]) haccused
  have hmembers : ∀ s₀ ∈ [firstOfTwo], s₀.Fresh ∧ s₀.params = ⟨2, 1, 0⟩ := by
    intro s₀ hs₀
    obtain rfl := List.mem_singleton.1 hs₀
    exact ⟨hfresh, rfl⟩
  obtain ⟨-, hstands, -⟩ := complaint_stands_iff hmembers (by norm_num) hauthentic (List.mem_singleton_self _)
    upright_firstOfTwo hd hposted
  refine ⟨c, log, d, _, rfl, hd, haccusers, fun hcomplaint => ?_⟩
  obtain ⟨-, hearly⟩ := (hstands firstOfTwo d _ hfresh rfl hd 1).1 hcomplaint
  exact hearly [entry, complaintOfTwo.toEnvelope 1] (List.prefix_refl _) ⟨entry, by simp, rfl, rfl⟩

/-- an honest dealer that is accused before it deals, and deals in the end, keeps the complaint -/
theorem complaint_stands_late : ∃ (c : Contribution (ZMod 11)) (log : List Envelope)
    (d : Shareholder (ZMod 11) (ZMod 11)) (out : List (Payload (ZMod 11) (ZMod 11))),
      log = [complaintOfTwo.toEnvelope 1, firstOfTwo.answer 1,
        (Payload.contribution c : Payload (ZMod 11) (ZMod 11)).toEnvelope 0] ∧
      firstOfTwo.Upright ∧ Authentic [firstOfTwo] log ∧ History firstOfTwo log d out ∧
      (∀ y ∈ out, y.toEnvelope firstOfTwo.index ∈ log) ∧ .contribution c ∈ out ∧
      d.view.verdicts.get 1 0 = some .complaint := by
  have hfresh := upright_firstOfTwo.fresh
  have haccused := mem_accusers_complaintOfTwo [] (fun e he => absurd he List.not_mem_nil)
  obtain ⟨s, out, hs⟩ := History.exists_of_log hfresh.valid [complaintOfTwo.toEnvelope 1]
  have hanswered : Authentic [firstOfTwo] [complaintOfTwo.toEnvelope 1, firstOfTwo.answer 1] :=
    authentic_nil.concat_complaintOfTwo.concat_firstOfTwo hs (hs.rebuttal_mem upright_firstOfTwo haccused)
  -- it deals only after it has read its own answer
  have hstart : History firstOfTwo [] firstOfTwo [] := .start
  obtain ⟨t, new, ht, hcontributed, hnew⟩ :=
    hstart.read_on hfresh.valid [complaintOfTwo.toEnvelope 1, firstOfTwo.answer 1]
  have hdeal := ht.deal
  have hbehavior : t.behavior = .honest := congrArg Identity.behavior (ht.identity hfresh.valid)
  rw [Shareholder.contribute_honest hbehavior (hcontributed.trans hfresh.contributed)] at hdeal
  generalize (⟨t.commitments, _⟩ : Contribution (ZMod 11)) = c at hdeal
  set entry : Envelope := (Payload.contribution c : Payload (ZMod 11) (ZMod 11)).toEnvelope 0 with hentry
  set log : List Envelope := [complaintOfTwo.toEnvelope 1, firstOfTwo.answer 1, entry] with hlog
  have hauthentic : Authentic [firstOfTwo] log := hanswered.concat_firstOfTwo hdeal (y := .contribution c) (by simp)
  have hsparse : Sparse log := by
    constructor <;> simp [hlog, hentry, Payload.toEnvelope, Payload.opcode, Shareholder.answer] <;> decide
  obtain ⟨d, new', hd, -, hnew'⟩ := hdeal.read_on hfresh.valid [entry]
  have hcontributions : ∀ y ∈ [] ++ new ++ (some (Payload.contribution c)).toList ++ new', y.opcode = .contribution →
      y = .contribution c := by
    intro y hy hkind
    simp only [List.nil_append, List.mem_append, Option.toList_some, List.mem_singleton] at hy
    rcases hy with (hy | hy) | hy
    · exact absurd hkind (hnew y hy)
    · exact hy
    · exact absurd hkind (hnew' y hy)
  have hposted := hsparse.posted hd hcontributions (by simp [hlog]) (show entry ∈ log by simp [hlog])
  refine ⟨c, log, d, _, rfl, upright_firstOfTwo, hauthentic, hd, hposted, by simp, ?_⟩
  rw [hd.view_eq_ofLog hfresh, StatusMatrix.get_eq_cell]
  refine (complaint_iff_answers hauthentic (List.mem_singleton_self _) upright_firstOfTwo (by decide)
    (List.prefix_refl log)).2 ⟨View.accusers_mono ⟨[firstOfTwo.answer 1, entry], rfl⟩ haccused, ?_⟩
  intro before hpre hdealt
  have hundealt : ¬ Dealt 0 [complaintOfTwo.toEnvelope 1, firstOfTwo.answer 1] := by
    rintro ⟨e, he, -, hkind⟩
    simp only [List.mem_cons, List.not_mem_nil, or_false] at he
    rcases he with rfl | rfl
    · cases Opcode.code_inj.1 ((complaintOfTwo.opcode_toEnvelope 1).symm.trans hkind)
    · cases Opcode.code_inj.1 (((Payload.rebuttal _).opcode_toEnvelope _).symm.trans hkind)
  rcases concat_prefix_concat.1 (show before ++ [firstOfTwo.answer 1] <+:
      [complaintOfTwo.toEnvelope 1, firstOfTwo.answer 1] ++ [entry] from hpre) with ⟨-, hlast⟩ | hpre
  · have hopcode := congrArg Envelope.opcode hlast
    rw [hentry, Payload.opcode_toEnvelope] at hopcode
    cases Opcode.code_inj.1 (((Payload.rebuttal _).opcode_toEnvelope _).symm.trans hopcode)
  · exact hundealt (hdealt.mono ((List.prefix_append _ _).trans hpre))

end DistributedKey
