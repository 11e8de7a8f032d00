/-
The view of a whole log, and what a view settles for good.

- `after`: the view after one entry. An entry that does not read, or that no shareholder sent, changes nothing.
- `verdicts_after`: the two ways in which an entry changes the matrix.
- `along`: the view after all entries of a log, in order; `ofLog` starts from the empty view.
- `Settles v v'`: what `v` knows of a dealer's commitments, of announced successes, of QUAL, of R and of the public key
  is what `v'` knows of it.
- `settles_along`: no later entry takes back what a view has settled.
-/
import DistributedKey.Proofs.View.Valid

namespace DistributedKey

/-- an entry of a log that has grown by one is the last, or stood there before -/
theorem concat_prefix_concat {α : Type} {before log : List α} {e e' : α} :
    before ++ [e] <+: log ++ [e'] ↔ before = log ∧ e = e' ∨ before ++ [e] <+: log := by
  rw [List.prefix_concat_iff]
  refine or_congr_left ⟨fun h => ?_, fun ⟨hlog, he⟩ => by rw [hlog, he]⟩
  obtain ⟨hlog, he⟩ := List.append_inj' h rfl
  exact ⟨hlog, List.singleton_inj.1 he⟩

end DistributedKey

namespace DistributedKey.View

open Checked

variable {F G : Type}

section

variable [Suite F G] [Wire F] [Wire G] [Zero G] [Add G] [SMul F G] [DecidableEq F] [DecidableEq G] [NatCast F]
  [Sub F] [Mul F] [Zero F] [One F] [Inv F]

/-- the view after one entry, whoever reads it -/
def after (p : Params) (v : View G) (e : Envelope) : View G :=
  match (e.payload : Except Violation (Payload F G)) with
  | .error _ => v
  | .ok payload =>
    if e.sender.toNat < p.n then
      match v.step p e.sender payload with
      | .ok (v', _) => v'
      | .error _ => v
    else v

/-- the view after a log -/
def along (p : Params) (v : View G) (log : List Envelope) : View G := log.foldl (after p) v

/-- what everybody who has read a log knows in common -/
def ofLog (p : Params) (log : List Envelope) : View G := (initial p.n).along p log

variable {p : Params} {v v' : View G} {e : Envelope} {log : List Envelope}

theorem along_append (log later : List Envelope) : v.along p (log ++ later) = (v.along p log).along p later :=
  List.foldl_append

theorem along_concat : v.along p (log ++ [e]) = (v.along p log).after p e := along_append log [e]

theorem ofLog_concat : (ofLog p (log ++ [e]) : View G) = (ofLog p log).after p e := along_concat

theorem after_of_step {payload : Payload F G} {notices : List Notice} (he : e.payload = .ok payload)
    (hj : e.sender.toNat < p.n) (hstep : v.step p e.sender payload = .ok (v', notices)) : v.after p e = v' := by
  simp [after, he, hj, hstep]

theorem after_of_error {cause : Violation} (he : (e.payload : Except Violation (Payload F G)) = .error cause) :
    v.after p e = v := by
  simp [after, he]

theorem after_of_le (hj : p.n ≤ e.sender.toNat) : v.after p e = v := by
  unfold after
  split
  · rfl
  · rw [if_neg (by omega)]

theorem after_of_refused {payload : Payload F G} {fault : Fault} (he : e.payload = .ok payload)
    (hstep : v.step p e.sender payload = .error fault) : v.after p e = v := by
  simp only [after, he, hstep]
  split_ifs <;> rfl

theorem after_cases (p : Params) (v : View G) (e : Envelope) :
    v.after p e = v ∨ ∃ payload notices, (e.payload : Except Violation (Payload F G)) = .ok payload ∧
      e.sender.toNat < p.n ∧ v.step p e.sender payload = .ok (v.after p e, notices) := by
  rcases he : (e.payload : Except Violation (Payload F G)) with cause | payload
  · exact Or.inl (after_of_error he)
  · by_cases hj : e.sender.toNat < p.n
    · rcases hstep : v.step p e.sender payload with fault | ⟨w, notices⟩
      · exact Or.inl (after_of_refused he hstep)
      · refine Or.inr ⟨payload, notices, rfl, hj, ?_⟩
        rw [after_of_step he hj hstep, hstep]
    · exact Or.inl (after_of_le (by omega))

theorem Valid.after (h : Valid p v) (e : Envelope) : Valid p (v.after p e) := by
  rcases after_cases p v e with hv | ⟨payload, notices, -, -, hstep⟩
  · rwa [hv]
  · exact valid_step h hstep

theorem Valid.along (h : Valid p v) (log : List Envelope) : Valid p (v.along p log) := by
  induction log generalizing v with
  | nil => exact h
  | cons e log ih => exact ih (h.after e)

theorem valid_ofLog (p : Params) (log : List Envelope) : Valid p (ofLog p log : View G) :=
  (valid_initial p).along log

/-- the matrix changes by a row that was absent, or by one cell that a rebuttal turns -/
theorem verdicts_after (h : Valid p v) (e : Envelope) : (v.after p e).verdicts = v.verdicts ∨
    (∃ statuses notices, (e.payload : Except Violation (Payload F G)) = .ok (.verification statuses) ∧
      e.sender.toNat < p.n ∧ v.step p e.sender (.verification statuses : Payload F G) = .ok (v.after p e, notices) ∧
        v.verdicts.row? e.sender.toNat = none ∧
          (v.after p e).verdicts = ⟨v.verdicts.rows.set e.sender.toNat (some statuses)⟩) ∨
      ∃ b notices, (e.payload : Except Violation (Payload F G)) = .ok (.rebuttal b) ∧ e.sender.toNat < p.n ∧
        v.step p e.sender (.rebuttal b) = .ok (v.after p e, notices) ∧
          v.verdicts.cell b.accuser.toNat e.sender.toNat = some .complaint ∧
            (v.after p e).verdicts = v.verdicts.set b.accuser e.sender .success := by
  rcases after_cases p v e with hv | ⟨payload, notices, hpayload, hsender, hstep⟩
  · exact Or.inl (by rw [hv])
  · generalize v.after p e = v' at hstep ⊢
    cases payload with
    | contribution c =>
      obtain ⟨hw, -⟩ := step_contribution_eq_ok.1 hstep
      rw [takeContribution_eq_ok h.commitments_eq_seen] at hw
      obtain ⟨-, rfl⟩ := hw
      exact Or.inl rfl
    | verification statuses =>
      obtain ⟨hw, -⟩ := step_verification_eq_ok.1 hstep
      obtain ⟨-, hnone, -, rfl⟩ := takeVerification_eq_ok.1 hw
      exact Or.inr (Or.inl ⟨statuses, notices, hpayload, hsender, hstep, hnone, tryQual_verdicts _ _⟩)
    | rebuttal b =>
      obtain ⟨hw, -⟩ := step_rebuttal_eq_ok.1 hstep
      obtain ⟨-, hcell, -, -, rfl⟩ := takeRebuttal_eq_ok.1 hw
      exact Or.inr (Or.inr ⟨b, notices, hpayload, hsender, hstep, hcell, tryQual_verdicts _ _⟩)
    | proof π =>
      obtain ⟨hw, -⟩ := step_proof_eq_ok.1 hstep
      rw [takeProof_eq_ok h.publicTerms_eq_commitments] at hw
      obtain ⟨qual, c, c₀, -, -, -, -, -, -, -, rfl⟩ := hw
      exact Or.inl rfl
    | bulkProof b =>
      rw [h.takeBulkProof_frame hstep]
      exact Or.inl rfl

/-- a cell comes to say success by its row or by a rebuttal of the dealer -/
theorem cell_after {j d : Nat} (hc : (v.after p e).verdicts.cell j d = some .success) (h : Valid p v) :
    v.verdicts.cell j d = some .success ∨
      (∃ statuses, (e.payload : Except Violation (Payload F G)) = .ok (.verification statuses) ∧
        e.sender.toNat = j ∧ statuses[d]? = some (some .success)) ∨
      ∃ b notices, (e.payload : Except Violation (Payload F G)) = .ok (.rebuttal b) ∧ b.accuser.toNat = j ∧
        e.sender.toNat = d ∧ e.sender.toNat < p.n ∧ v.step p e.sender (.rebuttal b) = .ok (v.after p e, notices) := by
  rcases verdicts_after h e with hsame | ⟨statuses, -, hpayload, hlt, -, -, hrows⟩ |
    ⟨b, notices, hpayload, hlt, hstep, -, hset⟩
  · exact Or.inl (hsame ▸ hc)
  · rw [hrows] at hc
    obtain ⟨cells, hrow, hcell⟩ := StatusMatrix.cell_eq_some.1 hc
    rw [StatusMatrix.row?_setRow (h.rows_length ▸ hlt)] at hrow
    split_ifs at hrow with hj
    · obtain rfl := Option.some.inj hrow
      exact Or.inr (Or.inl ⟨statuses, hpayload, hj.symm, hcell⟩)
    · exact Or.inl (StatusMatrix.cell_eq_some.2 ⟨cells, hrow, hcell⟩)
  · by_cases hat : j = b.accuser.toNat ∧ d = e.sender.toNat
    · exact Or.inr (Or.inr ⟨b, notices, hpayload, hat.1.symm, hat.2.symm, hlt, hstep⟩)
    · rw [hset, StatusMatrix.cell_set_of_ne hat] at hc
      exact Or.inl hc

end

/-! ## what is settled -/

/-- everything `v` has settled is settled in the same way in `v'` -/
structure Settles (v v' : View G) : Prop where
  seen : ∀ d : Nat, v.seen[d]? = some true → v'.seen[d]? = some true
  commitments : ∀ (d : Nat) (c : Poly G), v.commitments[d]? = some (some c) → v'.commitments[d]? = some (some c)
  announced : ∀ j : Nat, (v.verdicts.row? j).isSome → (v'.verdicts.row? j).isSome
  successes : v.verdicts.Grows v'.verdicts
  qual : ∀ q, v.qual = some q → v'.qual = some q
  proofSet : ∀ d ∈ v.proofSet, d ∈ v'.proofSet
  rSet : ∀ r, v.rSet = some r → v'.rSet = some r
  uSet : ∀ j ∈ v.uSet, j ∈ v'.uSet
  publicKey : ∀ y, v.publicKey = some y → v'.publicKey = some y

theorem Settles.refl (v : View G) : Settles v v where
  seen _ h := h
  commitments _ _ h := h
  announced _ h := h
  successes := .refl _
  qual _ h := h
  proofSet _ h := h
  rSet _ h := h
  uSet _ h := h
  publicKey _ h := h

theorem Settles.trans {u v w : View G} (h : Settles u v) (h' : Settles v w) : Settles u w where
  seen d hd := h'.seen d (h.seen d hd)
  commitments d c hc := h'.commitments d c (h.commitments d c hc)
  announced j hj := h'.announced j (h.announced j hj)
  successes := h.successes.trans h'.successes
  qual q hq := h'.qual q (h.qual q hq)
  proofSet d hd := h'.proofSet d (h.proofSet d hd)
  rSet r hr := h'.rSet r (h.rSet r hr)
  uSet j hj := h'.uSet j (h.uSet j hj)
  publicKey y hy := h'.publicKey y (h.publicKey y hy)

/-- growing the matrix and looking for QUAL again takes nothing back -/
theorem settles_tryQual {p : Params} {v : View G} {m : StatusMatrix} (hgrows : v.verdicts.Grows m)
    (hrow : ∀ j : Nat, (v.verdicts.row? j).isSome → (m.row? j).isSome) :
    Settles v (tryQual p { v with verdicts := m }) := by
  constructor
  · simp
  · simp
  · simpa using hrow
  · simpa using hgrows
  · exact fun q hq => tryQual_qual_of_some hq
  · simp
  · simp
  · simp
  · simp

section

variable [Suite F G] [Zero G] [DecidableEq G] {p : Params} {v v' : View G}

theorem settles_takeContribution {d : Index} {c : Contribution G} (h : Valid p v)
    (hok : v.takeContribution p d c = .ok v') : Settles v v' := by
  rw [takeContribution_eq_ok h.commitments_eq_seen] at hok
  obtain ⟨hseen, rfl⟩ := hok
  refine { Settles.refl v with seen := fun e he => ?_, commitments := fun e c' hc => ?_ }
  · rw [List.getElem?_set]
    split_ifs with hd hlt
    · rfl
    · exact absurd (List.getElem?_eq_some_iff.1 hseen).1 hlt
    · exact he
  · have hne : d.toNat ≠ e := by
      rintro rfl
      rw [(h.committed _ c' hc).1] at hseen
      cases hseen
    dsimp only [keepCommitments]
    split
    · rw [List.getElem?_set_ne hne, hc]
    · exact hc

omit [Suite F G] [Zero G] [DecidableEq G] in
theorem settles_takeVerification {j : Index} {statuses : List (Option Status)}
    (hok : v.takeVerification p j statuses = .ok v') : Settles v v' := by
  obtain ⟨hj, hnone, -, rfl⟩ := takeVerification_eq_ok.1 hok
  refine settles_tryQual (StatusMatrix.grows_setRow hj hnone) fun i hi => ?_
  rw [StatusMatrix.row?_setRow hj]
  split_ifs
  · rfl
  · exact hi

theorem settles_takeRebuttal [NatCast F] [Add G] [SMul F G] {d : Index} {r : Rebuttal F}
    (hok : v.takeRebuttal p d r = .ok v') : Settles v v' := by
  obtain ⟨-, -, -, -, rfl⟩ := takeRebuttal_eq_ok.1 hok
  refine settles_tryQual (StatusMatrix.grows_set _ _ _) fun i hi => ?_
  rw [StatusMatrix.row?_set]
  split_ifs
  · simpa using hi
  · exact hi

variable [Wire G] [Add G] [SMul F G] [DecidableEq F]

theorem settles_takeProof {j : Index} {π : Opening F G} (h : Valid p v) (hok : v.takeProof p j π = .ok v') :
    Settles v v' := by
  rw [takeProof_eq_ok h.publicTerms_eq_commitments] at hok
  obtain ⟨qual, c, c₀, -, -, -, -, -, -, -, rfl⟩ := hok
  refine { Settles.refl v with proofSet := fun d hd => ?_, rSet := fun r hr => ?_ }
  · exact IndexSet.mem_insert.2 (Or.inr hd)
  · simp [rSetAfter, hr]

variable [NatCast F] [Sub F] [Mul F] [Zero F] [One F] [Inv F]

theorem settles_takeBulkProof {j : Index} {b : BulkProof F G} {notices : List Notice} (h : Valid p v)
    (hok : v.takeBulkProof p j b = .ok (v', notices)) : Settles v v' := by
  rw [takeBulkProof_eq_ok h.provenShares_eq_commitments] at hok
  rcases hok with ⟨-, hv⟩ | ⟨hkey, c, r, points, -, -, -, -, -, hv⟩
  · cases hv
    exact .refl v
  · have hu : ∀ i ∈ v.uSet, i ∈ v.uSet.insert j := fun i hi => IndexSet.mem_insert.2 (Or.inr hi)
    have hkey' : ∀ (w : View G) (y : G), v.publicKey = some y → w.publicKey = some y := by
      intro w y hy
      rw [hkey] at hy
      cases hy
    split_ifs at hv
    · obtain ⟨-, hv⟩ := reconstruct_frame hv
      rw [hv]
      exact { Settles.refl v with uSet := hu, publicKey := hkey' _ }
    · cases hv
      exact { Settles.refl v with uSet := hu, publicKey := hkey' _ }

theorem settles_step {j : Index} {payload : Payload F G} {notices : List Notice} (h : Valid p v)
    (hok : v.step p j payload = .ok (v', notices)) : Settles v v' := by
  cases payload with
  | contribution c =>
    obtain ⟨hw, -⟩ := step_contribution_eq_ok.1 hok
    exact settles_takeContribution h hw
  | verification statuses =>
    obtain ⟨hw, -⟩ := step_verification_eq_ok.1 hok
    exact settles_takeVerification hw
  | rebuttal r =>
    obtain ⟨hw, -⟩ := step_rebuttal_eq_ok.1 hok
    exact settles_takeRebuttal hw
  | proof π =>
    obtain ⟨hw, -⟩ := step_proof_eq_ok.1 hok
    exact settles_takeProof h hw
  | bulkProof b => exact settles_takeBulkProof h hok

variable [Wire F]

theorem settles_after (h : Valid p v) (e : Envelope) : Settles v (v.after p e) := by
  rcases after_cases p v e with hv | ⟨payload, notices, -, -, hstep⟩
  · rw [hv]
    exact .refl v
  · exact settles_step h hstep

/-- **No entry takes back what a view has settled.** -/
theorem settles_along (h : Valid p v) (log : List Envelope) : Settles v (v.along p log) := by
  induction log generalizing v with
  | nil => exact .refl v
  | cons e log ih => exact (settles_after h e).trans (ih (h.after e))

theorem settles_ofLog (p : Params) {log log' : List Envelope} (h : log <+: log') :
    Settles (ofLog p log : View G) (ofLog p log') := by
  obtain ⟨later, rfl⟩ := h
  rw [ofLog, ofLog, along_append]
  exact settles_along (valid_ofLog p log) later

end

end DistributedKey.View
