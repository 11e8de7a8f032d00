/-
Every bulk proof that a shareholder hands out is accepted, by every reader that can accept one of it at all.

The two sides meet in `View.Backs v j R b`: over R as it is frozen in `v`, `b` proves the shares that the recorded
commitments say were dealt to `j`. It is said of the view alone, so whoever has read as much finds the same.

- `proveShares_cases`: proofs are made of all the shares of R, or one of these is missing.
- `Delivered.backs`: what is handed out backs R, because stored shares open the recorded commitments, however they came.
- `Delivered.freezes`: who freezes R hands a bulk proof out unless it lacks a share, or is silent.
- `View.Backs.accepts`, `Valid.accepts_backing`: a bulk proof that backs R is taken in, without an alert.
- `View.accepts_of_mem_ofLog`: each sender in U has an entry on the log by which it came there.
- `bulkProof_acceptable`: so it is handed out by anybody, in any state, and accepted by anybody who has read as far.
-/
import DistributedKey.Proofs.Announcement
import DistributedKey.Proofs.Opening
import DistributedKey.Proofs.Silent.Uniform
import DistributedKey.Proofs.View.Staged

namespace DistributedKey

open Checked

variable {F G : Type}

namespace View

variable [Suite F G] [Wire G] [NatCast F] [Zero G] [Add G] [SMul F G] [DecidableEq F] [DecidableEq G]
  {v w : View G} {j : Index} {R : IndexSet} {b : BulkProof F G}

/-- `b` proves over R, frozen, the shares that were dealt to `j` -/
structure Backs (v : View G) (j : Index) (R : IndexSet) (b : BulkProof F G) : Prop where
  frozen : v.rSet = some R
  keys : b.proofs.keys = R.elems
  opens : ∀ e ∈ b.proofs.entries, ∃ c, v.commitments[e.1.toNat]? = some (some c) ∧
    e.2.verify (c.eval (xCoordinate j : F)) = .ok ()

/-- what backs R does so for good -/
theorem Backs.settles (h : v.Backs j R b) (hvw : Settles v w) : w.Backs j R b where
  frozen := hvw.rSet R h.frozen
  keys := h.keys
  opens e he := by
    obtain ⟨c, hc, hverify⟩ := h.opens e he
    exact ⟨c, hvw.commitments _ c hc, hverify⟩

/-- each member of R has a proof -/
theorem Backs.exists_proof (h : v.Backs j R b) {d : Index} (hd : d ∈ R) : ∃ π c, b.proofs.find? d = some π ∧
    v.commitments[d.toNat]? = some (some c) ∧ π.verify (c.eval (xCoordinate j : F)) = .ok () := by
  have hkey : d ∈ b.proofs.keys := by
    rw [h.keys]
    exact hd
  obtain ⟨π, hπ, hfind⟩ := IndexMap.find?_of_mem_keys hkey
  obtain ⟨c, hc, hverify⟩ := h.opens _ hπ
  exact ⟨π, c, hfind, hc, hverify⟩

/-- what backs R is taken in, whether or not it brings the key -/
theorem Backs.accepts {p : Params} [Zero F] [One F] [Sub F] [Mul F] [Inv F] (h : v.Backs j R b) (hv : Valid p v)
    (hcommitted : ∃ c, v.commitments[j.toNat]? = some (some c)) (hnew : j ∉ v.uSet) (hkey : v.publicKey = none) :
    ∃ (v' : View G) (notices : List Notice), v.takeBulkProof p j b = .ok (v', notices) ∧ Accepts p v j b v' notices := by
  obtain ⟨c, hc⟩ := hcommitted
  have hlt : j.toNat < p.n := hv.commitments_length ▸ (List.getElem?_eq_some_iff.1 hc).1
  have htakes : ∃ out, v.takeBulkProof p j b = .ok out := by
    have hopen := openShares_eq_ok h.opens
    have hput := hv.withBulkProof hlt (b.proofs.entries.map fun e => (e.1, e.2.publicA))
    obtain ⟨out, hout⟩ := hput.answers_reconstruct (F := F) p.k
    have htake : ∀ out, v.takeBulkProof p j b = .ok out ↔ _ := fun _ =>
      takeBulkProof_eq_ok hv.provenShares_eq_commitments
    by_cases hsize : (v.withBulkProof j (b.proofs.entries.map fun e => (e.1, e.2.publicA))).uSet.size = p.k
    · exact ⟨out, (htake _).2 (Or.inr ⟨hkey, c, R, _, hc, h.frozen, h.keys, hopen, hnew, by rw [if_pos hsize, hout]⟩)⟩
    · exact ⟨_, (htake _).2 (Or.inr ⟨hkey, c, R, _, hc, h.frozen, h.keys, hopen, hnew, if_neg hsize⟩)⟩
  obtain ⟨⟨v', notices⟩, hok⟩ := htakes
  refine ⟨v', notices, hok, ?_⟩
  rcases takeBulkProof_cases hv hok with ⟨hknown, -⟩ | haccepts
  · rw [hkey] at hknown
    cases hknown
  · exact haccepts

end View

namespace Shareholder

/-! ## handing out -/

/-- shares are proved one by one as they are stored, unless one is missing -/
theorem proveShares_cases [Suite F G] [Sub F] [Mul F] [Add G] [SMul F G] [Wire G] [Sampled F]
    {shares : List (Option (SharePair F))} {l : List Index} {rng rng' : Random} {o : Option (List (Index × Opening F G))}
    (h : proveShares shares l rng = .ok (o, rng')) :
    (o = none ∧ ∃ d ∈ l, shares[d.toNat]? = some none) ∨
      ∃ proofs, o = some proofs ∧ proofs.map Prod.fst = l ∧ ∀ e ∈ proofs, ∃ pair rng'',
        shares[e.1.toNat]? = some (some pair) ∧ e.2 = (Opening.prove pair.value pair.blinding rng'').1 := by
  induction l generalizing rng o rng' with
  | nil =>
    simp only [proveShares, pure_eq_ok, Prod.mk.injEq] at h
    exact Or.inr ⟨[], h.1.symm, rfl, fun e he => absurd he List.not_mem_nil⟩
  | cons d l ih =>
    simp only [proveShares, bind_eq_ok, entry_eq_ok] at h
    obtain ⟨cell, hcell, h⟩ := h
    cases cell with
    | none =>
      simp only [pure_eq_ok, Prod.mk.injEq] at h
      exact Or.inl ⟨h.1.symm, d, List.mem_cons_self, hcell⟩
    | some pair =>
      simp only [bind_eq_ok, pure_eq_ok, Prod.exists, Prod.mk.injEq] at h
      obtain ⟨others, rng'', hothers, rfl, -⟩ := h
      rcases ih hothers with ⟨rfl, e, he, hmissing⟩ | ⟨proofs, rfl, hkeys, hproofs⟩
      · exact Or.inl ⟨rfl, e, List.mem_cons_of_mem _ he, hmissing⟩
      · refine Or.inr ⟨_, rfl, by rw [List.map_cons, hkeys], fun e he => ?_⟩
        rcases List.mem_cons.1 he with rfl | he
        · exact ⟨pair, rng, hcell, rfl⟩
        · exact hproofs e he

section

variable [Field F] [AddCommGroup G] [Module F G] [Suite F G] [Wire F] [Wire G] [Sampled F] [DecidableEq F]
  [DecidableEq G] {s : Shareholder F G} {e : Envelope} {r : Response F G} {b : BulkProof F G} {R : IndexSet}

/-- **What is handed out backs R**, which the delivery froze: every share that is stored opens the recorded commitments of
its dealer. -/
theorem Delivered.backs (h : Delivered s e r) (hv : s.Valid) (hs : s.Sound) (hout : .bulkProof b ∈ r.outgoing) :
    s.view.rSet = none ∧ ∃ R, r.shareholder.view.Backs s.index R b := by
  have hsound := hs.delivered hv h
  have hindex := index_eq_of_identity h.identity
  obtain ⟨payload, view, r', -, hreact, hshareholder, hout⟩ := h.of_mem_outgoing hout
  have hanswers := react_opcode hreact _ hout
  cases payload with
  | proof π =>
    rcases onProof_cases hreact with ⟨-, rfl⟩ | ⟨R, proofs, rng, hnone, hR, hprove, ⟨-, rfl⟩ | ⟨l, hl, rfl⟩⟩
    · cases hout
    · cases hout
    obtain rfl := Payload.bulkProof.inj (List.mem_singleton.1 hout)
    obtain ⟨hmissing, -⟩ | ⟨l', hl', hkeys, hproofs⟩ := proveShares_cases hprove
    · rw [hl] at hmissing
      cases hmissing
    obtain rfl : l = l' := Option.some.inj (hl.symm.trans hl')
    have hsorted : (l.map Prod.fst).Pairwise (· < ·) := hkeys ▸ R.sorted
    have hentries := IndexMap.ofList_of_pairwise (List.pairwise_map.1 hsorted)
    refine ⟨hnone, R, by rw [hshareholder]; exact hR, by rw [IndexMap.keys, hentries, hkeys], fun e he => ?_⟩
    rw [hentries] at he
    obtain ⟨pair, rng', hshare, hproof⟩ := hproofs e he
    obtain ⟨-, c, hc, hcorrect⟩ := hsound.opens e.1.toNat pair (by rw [hshareholder]; exact hshare)
    refine ⟨c, hc, ?_⟩
    rw [hindex] at hcorrect
    rw [of_decide_eq_true hcorrect, hproof]
    exact Opening.verify_prove _ _ rng'
  | contribution _ | verification _ | rebuttal _ | bulkProof _ => simp [answers, Payload.opcode] at hanswers

/-- nothing but a proof of a constant term freezes R -/
theorem Delivered.exists_proof_of_freezes (h : Delivered s e r) (hv : s.Valid) (hnone : s.view.rSet = none)
    (hR : r.shareholder.view.rSet = some R) : ∃ (π : Opening F G) (view : View G) (r' : Response F G),
      e.payload = .ok (.proof π : Payload F G) ∧ ({ s with view } : Shareholder F G).onProof s.view = .ok r' ∧
        r.shareholder = r'.shareholder ∧ r.outgoing = if s.behavior = .silent then [] else r'.outgoing := by
  cases h with
  | refused cause hno =>
    have hR : s.view.rSet = some R := hR
    rw [hnone] at hR
    cases hR
  | @accepted payload view notices r' hpayload hsender hstep hreact =>
    have hview : r'.shareholder.view = view := react_view hreact
    have hR : r'.shareholder.view.rSet = some R := hR
    rw [hview] at hR
    by_cases hproof : payload.opcode = .proof
    · obtain ⟨π, rfl⟩ := Payload.exists_proof hproof
      exact ⟨π, view, r', hpayload, hreact, rfl, rfl⟩
    · have hsame : view.rSet = s.view.rSet := by
        by_cases hbulk : payload.opcode = .bulkProof
        · obtain ⟨b, rfl⟩ := Payload.exists_bulkProof hbulk
          rw [hv.view.takeBulkProof_frame hstep]
        · exact (View.step_early_frame hv.view hstep hproof hbulk).2.2.1
      rw [hsame, hnone] at hR
      cases hR

/-- **Who freezes R proves its shares**, unless it is silent or lacks a share of a member of R. -/
theorem Delivered.freezes (h : Delivered s e r) (hv : s.Valid) (hnone : s.view.rSet = none)
    (hR : r.shareholder.view.rSet = some R) (hbehavior : s.behavior ≠ .silent) :
    (∃ b, .bulkProof b ∈ r.outgoing) ∧ (∀ d ∈ R, ∃ pair, r.shareholder.shares[d.toNat]? = some (some pair)) ∨
      r.outgoing = [] ∧ ∃ d ∈ R, r.shareholder.shares[d.toNat]? = some none := by
  obtain ⟨π, view, r', -, hok, hshareholder, hout⟩ := h.exists_proof_of_freezes hv hnone hR
  rw [if_neg hbehavior] at hout
  rw [hshareholder] at hR ⊢
  rw [hout]
  rcases onProof_cases hok with ⟨hopen, rfl⟩ | ⟨R', proofs, rng, -, hR', hprove, hanswer⟩
  · rcases hopen with hopen | hopen
    · rw [hnone] at hopen
      cases hopen
    · rw [hopen] at hR
      cases hR
  have hsame : r'.shareholder.view.rSet = some R' ∧ r'.shareholder.shares = s.shares := by
    rcases hanswer with ⟨-, rfl⟩ | ⟨l, -, rfl⟩ <;> exact ⟨hR', rfl⟩
  obtain rfl : R' = R := Option.some.inj (hsame.1.symm.trans hR)
  rw [hsame.2]
  rcases proveShares_cases hprove with ⟨rfl, d, hd, hmissing⟩ | ⟨l, rfl, hkeys, hproofs⟩
  · rcases hanswer with ⟨-, rfl⟩ | ⟨l, hl, -⟩
    · exact Or.inr ⟨rfl, d, hd, hmissing⟩
    · cases hl
  · rcases hanswer with ⟨hl, -⟩ | ⟨l', -, rfl⟩
    · cases hl
    refine Or.inl ⟨⟨_, List.mem_singleton_self _⟩, fun d hd => ?_⟩
    obtain ⟨e, he, rfl⟩ := List.mem_map.1 (show d ∈ l.map Prod.fst by rw [hkeys]; exact hd)
    obtain ⟨pair, -, hshare, -⟩ := hproofs e he
    exact ⟨pair, hshare⟩

/-! ## accepting -/

variable {t : Shareholder F G} {j : Index}

/-- **Whoever reads a bulk proof that backs R accepts it**, if it knows the commitments of the sender, has nothing accepted
from it and no key yet. -/
theorem Valid.accepts_backing [LawfulWire F] [LawfulWire G] (h : t.Valid) (hb : t.view.Backs j R b)
    (hcommitted : ∃ c, t.view.commitments[j.toNat]? = some (some c)) (hnew : j ∉ t.view.uSet)
    (hkey : t.view.publicKey = none) :
    ∃ r, t.deliver ((Payload.bulkProof b : Payload F G).toEnvelope j) = some r ∧ r.shareholder.alerts = t.alerts ∧
      r.shareholder.view.uSet = t.view.uSet.insert j ∧
      r.shareholder.view.provenShares = t.view.provenShares.set j.toNat (some (b.proofs.map Opening.publicA)) := by
  obtain ⟨view, notices, hstep, haccepts⟩ := hb.accepts h.view hcommitted hnew hkey
  obtain ⟨huSet, hshares⟩ := haccepts.frame
  have hpayload := Payload.payload_toEnvelope (Payload.fits_bulkProof b) j
  obtain ⟨r, hr, hd⟩ := h.delivered ((Payload.bulkProof b : Payload F G).toEnvelope j)
  obtain ⟨r', hreact, hshareholder, -⟩ := hd.reacts hpayload haccepts.sender hstep
  obtain rfl := Except.ok.inj hreact
  exact ⟨r, hr, by rw [hshareholder], by rw [hshareholder]; exact huSet, by rw [hshareholder]; exact hshares⟩

end

end Shareholder

/-! ## histories -/

variable [Field F] [AddCommGroup G] [Module F G] [Suite F G] [Wire F] [Wire G] [Sampled F] [DecidableEq F]
  [DecidableEq G] [LawfulWire F] [LawfulWire G] {s₀ s t₀ t : Shareholder F G} {log read : List Envelope}
  {e : Envelope} {r : Shareholder.Response F G} {out out' : List (Payload F G)} {b : BulkProof F G}

omit [LawfulWire F] [LawfulWire G] in
/-- whoever has read as far as the sender finds the same backed -/
theorem History.backs_later (h₀ : s₀.Fresh) (h : History s₀ log s out) (ht₀ : t₀.Fresh) (hparams : t₀.params = s₀.params)
    (ht : History t₀ read t out') (hpre : log <+: read) {j : Index} {R : IndexSet} (hb : s.view.Backs j R b) :
    t.view.Backs j R b := by
  obtain ⟨later, rfl⟩ := hpre
  rw [h.view_eq_ofLog h₀] at hb
  rw [ht.view_eq_ofLog ht₀, hparams, View.ofLog, View.along_append]
  exact hb.settles (View.settles_along (View.valid_ofLog s₀.params log) later)

namespace View

variable {p : Params} {v : View G} {j : Index}

omit [Sampled F] [LawfulWire F] [LawfulWire G] in
/-- who comes into U had a bulk proof accepted, by a view that has its commitments -/
theorem Valid.accepts_of_mem_after (h : Valid p v) (hj : j ∈ (v.after (F := F) p e).uSet) : j ∈ v.uSet ∨
    ∃ (b : BulkProof F G) (notices : List Notice), e.sender = j ∧ e.payload = .ok (.bulkProof b : Payload F G) ∧
      Accepts p v j b (v.after (F := F) p e) notices ∧ ∃ c, v.commitments[j.toNat]? = some (some c) := by
  rcases after_cases p v e with hsame | ⟨payload, notices, hpayload, -, hstep⟩
  · exact Or.inl (hsame ▸ hj)
  rcases key_cases h hstep with ⟨huSet, -⟩ | ⟨b, rfl, haccepts⟩
  · exact Or.inl (huSet ▸ hj)
  rw [haccepts.frame.1] at hj
  rcases IndexSet.mem_insert.1 hj with rfl | hj
  · refine Or.inr ⟨b, notices, rfl, hpayload, haccepts, ?_⟩
    rcases (takeBulkProof_eq_ok h.provenShares_eq_commitments).1 hstep with ⟨hknown, -⟩ | ⟨-, c, -, -, hc, -⟩
    · rw [haccepts.unknown] at hknown
      cases hknown
    · exact ⟨c, hc⟩
  · exact Or.inl hj

omit [Sampled F] [LawfulWire F] [LawfulWire G] in
/-- so each sender in U has an entry on the log by which it came there -/
theorem accepts_of_mem_ofLog (hj : j ∈ (ofLog (F := F) p log : View G).uSet) :
    ∃ (before : List Envelope) (e : Envelope) (b : BulkProof F G) (w : View G) (notices : List Notice),
      before ++ [e] <+: log ∧ e.sender = j ∧ e.payload = .ok (.bulkProof b : Payload F G) ∧
        Accepts p (ofLog (F := F) p before) j b w notices ∧
          ∃ c, (ofLog (F := F) p before : View G).commitments[j.toNat]? = some (some c) := by
  induction log using List.reverseRecOn with
  | nil => exact absurd hj IndexSet.not_mem_empty
  | append_singleton log e ih =>
    rw [ofLog_concat] at hj
    rcases (valid_ofLog p log).accepts_of_mem_after hj with hj | ⟨b, notices, hsender, hpayload, haccepts, hc⟩
    · obtain ⟨before, e', b, w, notices, hpre, hrest⟩ := ih hj
      exact ⟨before, e', b, w, notices, hpre.trans (List.prefix_append log [e]), hrest⟩
    · exact ⟨log, e, b, _, notices, List.prefix_refl _, hsender, hpayload, haccepts, hc⟩

end View

/-- **Every bulk proof that is handed out is acceptable.** In any state that a shareholder can reach, on any entries, a
delivery on which it hands out a bulk proof freezes R, and the proof has an entry for each member of R and no other, which
verifies against what the commitments of the member say at the index of the sender. Any shareholder of a group of the same
size and thresholds that has read at least as much, knows the commitments of the sender, has accepted no bulk proof of it and
has no key yet accepts the proof without an alert.

A shareholder that freezes R and is not silent hands its bulk proof out, unless it has no share of some member of R. -/
theorem bulkProof_acceptable (h₀ : s₀.Fresh) (h : History s₀ log s out) (hr : s.deliver e = some r) :
    (∀ b, .bulkProof b ∈ r.outgoing → s.view.rSet = none ∧ ∃ R, r.shareholder.view.rSet = some R ∧
      b.proofs.keys = R.elems ∧
      (∀ d ∈ R, ∃ π c, b.proofs.find? d = some π ∧ r.shareholder.view.commitments[d.toNat]? = some (some c) ∧
        π.verify (c.eval (xCoordinate s₀.index : F)) = .ok ()) ∧
      ∀ (t₀ t : Shareholder F G) (read : List Envelope) (out' : List (Payload F G)), t₀.Fresh → t₀.params = s₀.params →
        History t₀ read t out' → log ++ [e] <+: read → (∃ c, t.view.commitments[s₀.index.toNat]? = some (some c)) →
          s₀.index ∉ t.view.uSet → t.view.publicKey = none →
            ∃ r', t.deliver ((Payload.bulkProof b : Payload F G).toEnvelope s₀.index) = some r' ∧
              r'.shareholder.alerts = t.alerts ∧ r'.shareholder.view.uSet = t.view.uSet.insert s₀.index ∧
              r'.shareholder.view.provenShares =
                t.view.provenShares.set s₀.index.toNat (some (b.proofs.map Opening.publicA))) ∧
    ∀ R, s.view.rSet = none → r.shareholder.view.rSet = some R → s₀.behavior ≠ .silent →
      (∃ b, .bulkProof b ∈ r.outgoing) ∧ (∀ d ∈ R, ∃ pair, r.shareholder.shares[d.toNat]? = some (some pair)) ∨
        r.outgoing = [] ∧ ∃ d ∈ R, r.shareholder.shares[d.toNat]? = some none := by
  have hvalid := h.valid h₀.valid
  have hd := hvalid.delivered_of_deliver hr
  refine ⟨fun b hout => ?_, fun R hnone hR hbehavior => ?_⟩
  · obtain ⟨hnone, R, hbacks⟩ := hd.backs hvalid (h.sound h₀) hout
    rw [h.index_eq h₀.valid] at hbacks
    refine ⟨hnone, R, hbacks.frozen, hbacks.keys, fun d hd => hbacks.exists_proof hd, ?_⟩
    intro t₀ t read out' ht₀ hparams ht hpre hcommitted hnew hkey
    have hbacks' := (h.read hr).backs_later h₀ ht₀ hparams ht hpre hbacks
    exact (ht.valid ht₀.valid).accepts_backing hbacks' hcommitted hnew hkey
  · have hbehavior' : s.behavior ≠ .silent := by
      rwa [show s.behavior = s₀.behavior from congrArg Identity.behavior (h.identity h₀.valid)]
    exact hd.freezes hvalid hnone hR hbehavior'

/-- five shareholders on the way to rest: one freezes an R of a single member and hands its bulk proof out, and shareholder 1
accepts it -/
theorem bulkProof_acceptable_five : ∃ (i : Index) (log read : List Envelope) (e : Envelope)
    (s t : Shareholder (ZMod 11) (ZMod 11)) (out out' : List (Payload (ZMod 11) (ZMod 11)))
    (r r' : Shareholder.Response (ZMod 11) (ZMod 11)) (b : BulkProof (ZMod 11) (ZMod 11)) (R : IndexSet),
      History (Cast.five.start i) log s out ∧ s.deliver e = some r ∧ .bulkProof b ∈ r.outgoing ∧
        r.shareholder.view.rSet = some R ∧ b.proofs.keys = R.elems ∧ log ++ [e] <+: read ∧
          History (Cast.five.start 1) read t out' ∧
            t.deliver ((Payload.bulkProof b : Payload (ZMod 11) (ZMod 11)).toEnvelope i) = some r' ∧
              r'.shareholder.alerts = t.alerts ∧ r'.shareholder.view.uSet = t.view.uSet.insert i := by
  obtain ⟨posts, s₁, out₁, -, hauthentic, hhistory, -, hkey, -⟩ := Cast.five_at_rest
  have hC := Cast.ready_five
  have hparams : (Cast.five.start 1).params = Cast.five.params := hC.params_eq Cast.one_lt_five
  rw [hhistory.view_eq_ofLog Cast.fresh_five, hparams] at hkey
  -- the key is there, so two bulk proofs were accepted, and each was handed out before by its sender
  have hn : Cast.five.params.n ≤ 11 := by
    rw [Cast.params_five]
    decide
  have hcounted : View.Counted Cast.five.params (View.ofLog Cast.five.params (posts.map Post.seal) : View (ZMod 11)) :=
    View.counted_ofLog (injOn_xCoordinate 11 hn) hC.admissible _
  obtain ⟨i, hi⟩ := List.exists_mem_of_length_pos
    (l := (View.ofLog Cast.five.params (posts.map Post.seal) : View (ZMod 11)).uSet.elems) (by
      rw [show List.length _ = Cast.five.params.k from hcounted.known hkey, Cast.params_five]
      decide)
  obtain ⟨read, e, b, w, notices, hpre, hsender, hpayload, haccepts, hcommitted⟩ := View.accepts_of_mem_ofLog hi
  have hlt := haccepts.sender
  have hindex := hC.index_eq i hlt
  obtain ⟨log', s', out', hlog', hs', y, hy, rfl⟩ := hauthentic read e hpre (Cast.five.start i)
    (List.mem_map_of_mem (Params.mem_dealers.2 hlt)) (hsender.trans hindex.symm)
  obtain ⟨b', rfl⟩ := Payload.exists_bulkProof (Payload.opcode_of_payload hpayload)
  obtain ⟨log, e, s, out, r, hlog, hs, hr, hb'⟩ := hs'.exists_delivery hy (by simp [Payload.opcode])
  obtain ⟨t, out'', ht⟩ := History.exists_of_log Cast.fresh_five.valid read
  have hview := ht.view_eq_ofLog Cast.fresh_five
  rw [hparams] at hview
  obtain ⟨-, R, hR, hkeys, -, haccepted⟩ := (bulkProof_acceptable (hC.fresh i hlt) hs hr).1 b' hb'
  obtain ⟨r', hr', halerts, huSet, -⟩ := haccepted (Cast.five.start 1) t read out'' Cast.fresh_five
    (hparams.trans (hC.params_eq hlt).symm) ht (hlog.trans hlog') (by rw [hview, hindex]; exact hcommitted)
    (by rw [hview, hindex]; exact haccepts.new) (by rw [hview]; exact haccepts.unknown)
  rw [hindex] at hr' huSet
  exact ⟨i, log, read, e, s, t, out, out'', r, r', b', R, hs, hr, hb', hR, hkeys, hlog.trans hlog', ht, hr', halerts,
    huSet⟩

end DistributedKey
