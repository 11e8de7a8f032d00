/-
The invariant of a view, and that no message ever crashes it.

`Valid p v` says that every table has an entry for each shareholder, that every stored vector has a cell for each dealer,
that kept commitments are `k` proper points of a dealer that was seen, that every candidate is endorsed and QUAL is what
the candidates determine, and that R and U hold shareholders only.

- `valid_initial`, `valid_step`: it holds at the start and after every accepted message.
- `step_qual_frame`, `step_early_frame`, `step_key_frame`: the kinds of message that leave QUAL, what was proved, and the
  key as they are.
- `step_ne_crash`: from a valid view, with admissible parameters, a message of a shareholder is accepted or refused.
-/
import DistributedKey.Proofs.Index
import DistributedKey.Proofs.View.Step

namespace DistributedKey

open Checked

variable {F G : Type}

/-- the bound on the parameters that a group is checked for -/
structure Params.Admissible (p : Params) : Prop where
  faults_lt : p.f < p.k
  bound : p.k + 2 * p.f ≤ p.n

namespace View

structure Valid [Suite F G] [Zero G] [DecidableEq G] (p : Params) (v : View G) : Prop where
  seen_length : v.seen.length = p.n
  commitments_length : v.commitments.length = p.n
  rows_length : v.verdicts.rows.length = p.n
  row_length : ∀ j cells, v.verdicts.row? j = some cells → cells.length = p.n
  publicTerms_length : v.publicTerms.length = p.n
  provenShares_length : v.provenShares.length = p.n
  committed : ∀ (d : Nat) (c : Poly G), v.commitments[d]? = some (some c) →
    v.seen[d]? = some true ∧ checkCommitments p.k c = .ok ()
  candidates_nodup : v.candidates.Nodup
  candidates_length : v.candidates.length ≤ p.f + 1
  endorsed : ∀ d ∈ v.candidates, d.toNat < p.n ∧ p.k + p.f < v.verdicts.successesFor d
  qual_eq : v.qual = qualOf p v.candidates
  rSet_subset : ∀ r, v.rSet = some r → ∃ q, v.qual = some q ∧ ∀ d ∈ r, d ∈ q
  uSet_lt : ∀ j ∈ v.uSet, j.toNat < p.n

section

variable [Suite F G] [Zero G] [DecidableEq G] {p : Params} {v v' : View G}

theorem valid_initial (p : Params) : Valid p (initial p.n : View G) where
  seen_length := by simp [initial]
  commitments_length := by simp [initial]
  rows_length := by simp [initial, StatusMatrix.empty]
  row_length j cells h := by
    simp [initial, StatusMatrix.empty, StatusMatrix.row?_eq_some, List.getElem?_replicate] at h
  publicTerms_length := by simp [initial]
  provenShares_length := by simp [initial]
  committed d c h := by simp [initial, List.getElem?_replicate] at h
  candidates_nodup := List.nodup_nil
  candidates_length := Nat.zero_le _
  endorsed d hd := absurd hd List.not_mem_nil
  qual_eq := by simp [initial, qualOf]
  rSet_subset r h := by simp [initial] at h
  uSet_lt j hj := absurd hj List.not_mem_nil

/-! ## tables of one length -/

theorem Valid.commitments_eq_seen (h : Valid p v) : v.commitments.length = v.seen.length :=
  h.commitments_length.trans h.seen_length.symm

theorem Valid.publicTerms_eq_commitments (h : Valid p v) : v.publicTerms.length = v.commitments.length :=
  h.publicTerms_length.trans h.commitments_length.symm

theorem Valid.provenShares_eq_commitments (h : Valid p v) : v.provenShares.length = v.commitments.length :=
  h.provenShares_length.trans h.commitments_length.symm

/-! ## what QUAL holds -/

theorem Valid.qual_iff (h : Valid p v) {q : IndexSet} :
    v.qual = some q ↔ p.f + 1 ≤ v.candidates.length ∧ .ofList v.candidates = q := by
  rw [h.qual_eq, qualOf]
  split_ifs with hlt <;> simp <;> omega

theorem Valid.qual_size (h : Valid p v) {q : IndexSet} (hq : v.qual = some q) : q.size = p.f + 1 := by
  obtain ⟨hlen, rfl⟩ := h.qual_iff.1 hq
  rw [IndexSet.size_ofList h.candidates_nodup]
  exact le_antisymm h.candidates_length hlen

theorem Valid.qual_endorsed (h : Valid p v) {q : IndexSet} (hq : v.qual = some q) {d : Index} (hd : d ∈ q) :
    d.toNat < p.n ∧ p.k + p.f < (v.verdicts.endorsers d.toNat).card := by
  obtain ⟨-, rfl⟩ := h.qual_iff.1 hq
  obtain ⟨hlt, hvotes⟩ := h.endorsed d (IndexSet.mem_ofList.1 hd)
  exact ⟨hlt, lt_of_lt_of_le hvotes (v.verdicts.successesFor_le_card d)⟩

/-- among `2 ^ 32` shareholders nobody is looked at, so QUAL is never frozen -/
theorem Valid.qual_eq_none (h : Valid p v) (hn : p.n = UInt32.size) : v.qual = none := by
  rcases Option.eq_none_or_eq_some v.qual with hnone | ⟨q, hq⟩
  · exact hnone
  · obtain ⟨d, hd⟩ := List.exists_mem_of_length_pos (l := v.candidates) (Nat.zero_lt_of_lt (h.qual_iff.1 hq).1)
    obtain ⟨-, hvotes⟩ := h.endorsed d hd
    rw [StatusMatrix.successesFor, h.rows_length, hn, Index.upTo_size] at hvotes
    exact absurd hvotes (Nat.not_lt_zero _)

theorem Valid.constant_isSome (h : Valid p v) (hp : p.Admissible) {d : Nat} {c : Poly G}
    (hc : v.commitments[d]? = some (some c)) : c.constant?.isSome := by
  have hcheck := (h.committed d c hc).2
  have hk := hp.faults_lt
  unfold checkCommitments at hcheck
  split_ifs at hcheck with hlen
  rw [not_not, Poly.length] at hlen
  obtain ⟨coeffs⟩ := c
  cases coeffs with
  | nil => simp at hlen; omega
  | cons a as => rfl

/-! ## what each message keeps -/

/-- a view whose matrix has grown, with QUAL looked for again -/
theorem Valid.tryQual (h : Valid p v) {m : StatusMatrix} (hgrows : v.verdicts.Grows m)
    (hrow : ∀ j cells, m.row? j = some cells → cells.length = p.n) :
    Valid p (tryQual p { v with verdicts := m }) := by
  have hlen : m.rows.length = p.n := hgrows.length.trans h.rows_length
  have hend : ∀ d ∈ v.candidates, d.toNat < p.n ∧ p.k + p.f < m.successesFor d := fun d hd =>
    ⟨(h.endorsed d hd).1, lt_of_lt_of_le (h.endorsed d hd).2 (hgrows.successesFor_le d)⟩
  rcases Option.eq_none_or_eq_some v.qual with hq | ⟨q, hq⟩
  · have hn := nominated_nextCandidates p m v.candidates
    rw [tryQual_of_none (v := { v with verdicts := m }) hq]
    refine { h with
      rows_length := hlen, row_length := hrow, qual_eq := rfl
      candidates_nodup := hn.nodup h.candidates_nodup
      candidates_length := hn.length_le h.candidates_length
      endorsed := fun d hd => ?_, rSet_subset := fun r hr => ?_ }
    · rcases hn.endorsed d hd with hd | ⟨hd, hs⟩
      · exact hend d hd
      · exact ⟨Index.lt_of_mem_upTo hd, hs⟩
    · obtain ⟨q, hq', -⟩ := h.rSet_subset r hr
      rw [hq] at hq'
      cases hq'
  · rw [tryQual_of_isSome (by simp [hq])]
    exact { h with rows_length := hlen, row_length := hrow, endorsed := hend }

theorem valid_takeContribution {d : Index} {c : Contribution G} (h : Valid p v)
    (hok : v.takeContribution p d c = .ok v') : Valid p v' := by
  rw [takeContribution_eq_ok h.commitments_eq_seen] at hok
  obtain ⟨hseen, rfl⟩ := hok
  refine { h with
    seen_length := by simpa using h.seen_length
    commitments_length := by simpa using h.commitments_length
    committed := fun e c' hc => ?_ }
  have hlt := (List.getElem?_eq_some_iff.1 hseen).1
  have hold : v.commitments[e]? = some (some c') →
      (v.seen.set d.toNat true)[e]? = some true ∧ checkCommitments p.k c' = .ok () := by
    intro hc
    obtain ⟨hs, hcheck⟩ := h.committed e c' hc
    refine ⟨?_, hcheck⟩
    rw [List.getElem?_set]
    split_ifs <;> simp_all
  unfold keepCommitments at hc
  split at hc
  · rename_i hcheck
    rw [List.getElem?_set] at hc
    split_ifs at hc with he hlt'
    · subst he
      simp only [Option.some.injEq] at hc
      subst hc
      exact ⟨by simp [hlt], hcheck⟩
    · exact hold hc
  · exact hold hc

theorem valid_takeVerification {j : Index} {statuses : List (Option Status)} (h : Valid p v)
    (hok : v.takeVerification p j statuses = .ok v') : Valid p v' := by
  obtain ⟨hj, hnone, hlen, rfl⟩ := takeVerification_eq_ok.1 hok
  refine h.tryQual (StatusMatrix.grows_setRow hj hnone) fun i cells hi => ?_
  rw [StatusMatrix.row?_setRow hj] at hi
  split_ifs at hi with hij
  · cases hi; exact hlen
  · exact h.row_length i cells hi

end

section

variable [Suite F G] [NatCast F] [Zero G] [Add G] [SMul F G] [DecidableEq G] {p : Params} {v v' : View G}

theorem valid_takeRebuttal {d : Index} {r : Rebuttal F} (h : Valid p v)
    (hok : v.takeRebuttal p d r = .ok v') : Valid p v' := by
  obtain ⟨-, -, -, -, rfl⟩ := takeRebuttal_eq_ok.1 hok
  refine h.tryQual (StatusMatrix.grows_set _ _ _) fun i cells hi => ?_
  rw [StatusMatrix.row?_set] at hi
  split_ifs at hi with hij
  · obtain ⟨cells', hi', rfl⟩ := Option.map_eq_some_iff.1 hi
    simpa using h.row_length i cells' hi'
  · exact h.row_length i cells hi

end

section

variable [Suite F G] [Wire G] [Zero G] [Add G] [SMul F G] [DecidableEq F] [DecidableEq G] {p : Params}
  {v v' : View G}

theorem rSetAfter_eq_some {quorum : Nat} {qual proofSet r : IndexSet} {rSet : Option IndexSet}
    (h : rSetAfter quorum qual proofSet rSet = some r) :
    rSet = some r ∨ rSet = none ∧ proofSet.size = quorum ∧ qual.filter (· ∉ proofSet) = r := by
  unfold rSetAfter at h
  split_ifs at h with hc
  · exact Or.inr ⟨by simpa using hc.1, hc.2, by simpa using h⟩
  · exact Or.inl h

theorem valid_takeProof {j : Index} {π : Opening F G} (h : Valid p v) (hok : v.takeProof p j π = .ok v') :
    Valid p v' := by
  rw [takeProof_eq_ok h.publicTerms_eq_commitments] at hok
  obtain ⟨qual, c, c₀, hq, -, -, -, -, -, -, rfl⟩ := hok
  refine { h with
    publicTerms_length := by simpa using h.publicTerms_length
    rSet_subset := fun r hr => ?_ }
  rcases rSetAfter_eq_some hr with hr | ⟨-, -, rfl⟩
  · exact h.rSet_subset r hr
  · exact ⟨qual, hq, fun d hd => (IndexSet.mem_filter.1 hd).1⟩

end

/-! ## reconstruction -/

section

variable {v v' : View G} {table : List (Option (IndexMap G))} {terms : List (Option G)} {l : List Index}

theorem answers_sharesOf {d : Index} (h : ∀ j ∈ l, j.toNat < table.length) : Answers (sharesOf table d l) := by
  induction l with
  | nil => exact answers_pure _
  | cons j l ih =>
    refine (answers_entry (h j List.mem_cons_self)).bind fun _ _ => ?_
    exact (ih fun i hi => h i (List.mem_cons_of_mem _ hi)).bind fun _ _ => answers_pure _

theorem answers_sumTerms [Add G] {acc : G} (h : ∀ d ∈ l, d.toNat < terms.length) : Answers (sumTerms terms l acc) := by
  induction l generalizing acc with
  | nil => exact answers_pure _
  | cons d l ih =>
    refine (answers_entry (h d List.mem_cons_self)).bind fun term _ => ?_
    split
    · exact ih fun e he => h e (List.mem_cons_of_mem _ he)
    · exact answers_pure _

variable [Add G] [SMul F G] [DecidableEq F] [NatCast F] [Zero G] [Sub F] [Mul F] [Zero F] [One F] [Inv F]

/-- filling in constant terms touches nothing but their table -/
theorem interpolateTerms_frame {k : Nat} {notices : List Notice}
    (h : interpolateTerms (F := F) k v l = .ok (v', notices)) :
    v'.publicTerms.length = v.publicTerms.length ∧ v' = { v with publicTerms := v'.publicTerms } := by
  induction l generalizing v with
  | nil =>
    simp only [interpolateTerms, pure_eq_ok, Prod.mk.injEq] at h
    obtain ⟨rfl, -⟩ := h
    exact ⟨rfl, rfl⟩
  | cons d l ih =>
    simp only [interpolateTerms, bind_eq_ok] at h
    obtain ⟨shares, -, h⟩ := h
    split at h
    · simp only [bind_eq_ok, replace_eq_ok] at h
      obtain ⟨_, ⟨-, rfl⟩, h⟩ := h
      obtain ⟨hlen, hv⟩ := ih h
      exact ⟨by simpa using hlen, hv⟩
    · simp only [pure_eq_ok, Prod.mk.injEq] at h
      obtain ⟨rfl, -⟩ := h
      exact ⟨rfl, rfl⟩

/-- reconstruction touches nothing but the constant terms and the public key -/
theorem reconstruct_frame {k : Nat} {notices : List Notice} (h : reconstruct (F := F) k v = .ok (v', notices)) :
    v'.publicTerms.length = v.publicTerms.length ∧
      v' = { v with publicTerms := v'.publicTerms, publicKey := v'.publicKey } := by
  unfold reconstruct at h
  split at h
  · simp only [bind_eq_ok, Prod.exists] at h
    obtain ⟨w, ns, hint, h⟩ := h
    obtain ⟨hlen, hw⟩ := interpolateTerms_frame hint
    split_ifs at h
    · simp only [pure_eq_ok, Prod.mk.injEq] at h
      obtain ⟨rfl, -⟩ := h
      exact ⟨hlen, by rw [hw]⟩
    · simp only [bind_eq_ok] at h
      obtain ⟨sum, -, h⟩ := h
      split at h <;> simp only [pure_eq_ok, Prod.mk.injEq] at h <;> obtain ⟨rfl, -⟩ := h
      · exact ⟨hlen, by rw [hw]⟩
      · exact ⟨hlen, by rw [hw]⟩
  · simp only [pure_eq_ok, Prod.mk.injEq] at h
    obtain ⟨rfl, -⟩ := h
    exact ⟨rfl, rfl⟩

theorem answers_interpolateTerms {k : Nat} (hu : ∀ j ∈ v.uSet, j.toNat < v.provenShares.length)
    (hl : ∀ d ∈ l, d.toNat < v.publicTerms.length) : Answers (interpolateTerms (F := F) k v l) := by
  induction l generalizing v with
  | nil => exact answers_pure _
  | cons d l ih =>
    refine (answers_sharesOf hu).bind fun shares _ => ?_
    split
    · refine (answers_replace _ (hl d List.mem_cons_self)).bind fun terms ht => ?_
      obtain ⟨-, rfl⟩ := replace_eq_ok.1 ht
      exact ih hu fun e he => by simpa using hl e (List.mem_cons_of_mem _ he)
    · exact answers_pure _

end

theorem openShares_ne_crash [Suite F G] [Wire G] [Add G] [SMul F G] [DecidableEq F] [DecidableEq G] [NatCast F]
    [Zero G] {j : Index} {table : List (Option (Poly G))}
    {l : List (Index × Opening F G)} (h : ∀ e ∈ l, e.1.toNat < table.length) : openShares j table l ≠ .error .crash := by
  induction l with
  | nil => exact pure_ne_crash
  | cons e l ih =>
    obtain ⟨d, π⟩ := e
    refine bind_ne_crash (entry_ne_crash (h _ List.mem_cons_self)) fun c _ => ?_
    refine bind_ne_crash known_ne_crash fun c' _ => ?_
    split
    · exact refuse_ne_crash
    · exact bind_ne_crash (ih fun i hi => h i (List.mem_cons_of_mem _ hi)) fun _ _ => pure_ne_crash

section

variable [Suite F G] [Zero G] [DecidableEq G] {p : Params} {v v' : View G}

theorem Valid.withBulkProof (h : Valid p v) {j : Index} (hj : j.toNat < p.n) (points : List (Index × G)) :
    Valid p (v.withBulkProof j points) :=
  { h with
    provenShares_length := by simpa [View.withBulkProof] using h.provenShares_length
    uSet_lt := fun i hi => by
      rcases IndexSet.mem_insert.1 hi with rfl | hi
      · exact hj
      · exact h.uSet_lt i hi }

variable [Add G] [SMul F G] [DecidableEq F] [NatCast F] [Sub F] [Mul F] [Zero F] [One F] [Inv F]

/-- a reconstruction comes to an end, with a key or with something to report -/
theorem Valid.answers_reconstruct (h : Valid p v) (k : Nat) : Answers (reconstruct (F := F) k v) := by
  unfold reconstruct
  split
  · rename_i q r hq hr
    have hqn : ∀ d ∈ q, d.toNat < p.n := fun d hd => (h.qual_endorsed hq hd).1
    have hrn : ∀ d ∈ r, d.toNat < p.n := by
      intro d hd
      obtain ⟨q', hq', hsub⟩ := h.rSet_subset r hr
      exact (h.qual_endorsed hq' (hsub d hd)).1
    refine Answers.bind ?_ fun out hout => ?_
    · exact answers_interpolateTerms (fun j hj => h.provenShares_length ▸ h.uSet_lt j hj)
        fun d hd => h.publicTerms_length ▸ hrn d hd
    · obtain ⟨hlen, -⟩ := interpolateTerms_frame hout
      dsimp only
      split_ifs
      · exact answers_pure _
      · refine (answers_sumTerms fun d hd => ?_).bind fun sum _ => ?_
        · rw [hlen, h.publicTerms_length]
          exact hqn d hd
        · split <;> exact answers_pure _
  · exact answers_pure _

variable [Wire G]

/-- a bulk proof touches nothing but the tables of shares and constant terms, U and the public key -/
theorem Valid.takeBulkProof_frame {j : Index} {b : BulkProof F G} {notices : List Notice} (h : Valid p v)
    (hok : v.takeBulkProof p j b = .ok (v', notices)) : v' = { v with
      provenShares := v'.provenShares
      publicTerms := v'.publicTerms
      uSet := v'.uSet
      publicKey := v'.publicKey } := by
  rw [takeBulkProof_eq_ok h.provenShares_eq_commitments] at hok
  rcases hok with ⟨-, hv⟩ | ⟨-, c, r, points, -, -, -, -, -, hv⟩
  · cases hv
    rfl
  · split_ifs at hv
    · obtain ⟨-, hv⟩ := reconstruct_frame hv
      rw [hv]
      rfl
    · cases hv
      rfl

theorem valid_takeBulkProof {j : Index} {b : BulkProof F G} {notices : List Notice} (h : Valid p v)
    (hok : v.takeBulkProof p j b = .ok (v', notices)) : Valid p v' := by
  rw [takeBulkProof_eq_ok h.provenShares_eq_commitments] at hok
  rcases hok with ⟨-, hv⟩ | ⟨-, c, r, points, hc, -, -, -, -, hv⟩
  · cases hv
    exact h
  · have hj := (List.getElem?_eq_some_iff.1 hc).1
    have hw := h.withBulkProof (h.commitments_length ▸ hj) points
    split_ifs at hv
    · obtain ⟨hlen, hv⟩ := reconstruct_frame hv
      rw [hv]
      exact { hw with publicTerms_length := hlen.trans hw.publicTerms_length }
    · cases hv
      exact hw

/-! ## one message -/

/-- **The invariant is kept by every accepted message.** -/
theorem valid_step {j : Index} {payload : Payload F G} {notices : List Notice} (h : Valid p v)
    (hok : v.step p j payload = .ok (v', notices)) : Valid p v' := by
  cases payload with
  | contribution c =>
    obtain ⟨hw, -⟩ := step_contribution_eq_ok.1 hok
    exact valid_takeContribution h hw
  | verification statuses =>
    obtain ⟨hw, -⟩ := step_verification_eq_ok.1 hok
    exact valid_takeVerification h hw
  | rebuttal r =>
    obtain ⟨hw, -⟩ := step_rebuttal_eq_ok.1 hok
    exact valid_takeRebuttal h hw
  | proof π =>
    obtain ⟨hw, -⟩ := step_proof_eq_ok.1 hok
    exact valid_takeProof h hw
  | bulkProof b => exact valid_takeBulkProof h hok

/-- only a contribution marks a dealer as seen or stores commitments -/
theorem step_frame {j : Index} {payload : Payload F G} {notices : List Notice} (h : Valid p v)
    (hok : v.step p j payload = .ok (v', notices)) (hne : ∀ c, payload ≠ .contribution c) :
    v'.seen = v.seen ∧ v'.commitments = v.commitments := by
  cases payload with
  | contribution c => exact absurd rfl (hne c)
  | verification statuses =>
    obtain ⟨hw, -⟩ := step_verification_eq_ok.1 hok
    obtain ⟨-, -, -, rfl⟩ := takeVerification_eq_ok.1 hw
    simp
  | rebuttal r =>
    obtain ⟨hw, -⟩ := step_rebuttal_eq_ok.1 hok
    obtain ⟨-, -, -, -, rfl⟩ := takeRebuttal_eq_ok.1 hw
    simp
  | proof π =>
    obtain ⟨hw, -⟩ := step_proof_eq_ok.1 hok
    rw [takeProof_eq_ok h.publicTerms_eq_commitments] at hw
    obtain ⟨qual, c, c₀, -, -, -, -, -, -, -, rfl⟩ := hw
    exact ⟨rfl, rfl⟩
  | bulkProof b =>
    rw [h.takeBulkProof_frame hok]
    exact ⟨rfl, rfl⟩

/-- until QUAL is frozen nothing is proved: the messages up to then leave all that leads to the key as it is -/
theorem step_early_frame {j : Index} {payload : Payload F G} {notices : List Notice} (h : Valid p v)
    (hok : v.step p j payload = .ok (v', notices)) (hproof : payload.opcode ≠ .proof)
    (hbulk : payload.opcode ≠ .bulkProof) :
    v'.publicTerms = v.publicTerms ∧ v'.proofSet = v.proofSet ∧ v'.rSet = v.rSet ∧
      v'.provenShares = v.provenShares ∧ v'.uSet = v.uSet ∧ v'.publicKey = v.publicKey ∧ notices = [] := by
  cases payload with
  | contribution c =>
    obtain ⟨hw, hnotices⟩ := step_contribution_eq_ok.1 hok
    rw [takeContribution_eq_ok h.commitments_eq_seen] at hw
    obtain ⟨-, rfl⟩ := hw
    exact ⟨rfl, rfl, rfl, rfl, rfl, rfl, hnotices⟩
  | verification statuses =>
    obtain ⟨hw, hnotices⟩ := step_verification_eq_ok.1 hok
    obtain ⟨-, -, -, rfl⟩ := takeVerification_eq_ok.1 hw
    simpa using hnotices
  | rebuttal r =>
    obtain ⟨hw, hnotices⟩ := step_rebuttal_eq_ok.1 hok
    obtain ⟨-, -, -, -, rfl⟩ := takeRebuttal_eq_ok.1 hw
    simpa using hnotices
  | proof π => exact absurd rfl hproof
  | bulkProof b => exact absurd rfl hbulk

/-- a message other than a bulk proof brings the public key no nearer, and there is nothing to notice about it -/
theorem step_key_frame {j : Index} {payload : Payload F G} {notices : List Notice} (h : Valid p v)
    (hok : v.step p j payload = .ok (v', notices)) (hne : payload.opcode ≠ .bulkProof) :
    v'.uSet = v.uSet ∧ v'.provenShares = v.provenShares ∧ v'.publicKey = v.publicKey ∧ notices = [] := by
  by_cases hproof : payload.opcode = .proof
  · obtain ⟨π, rfl⟩ := Payload.exists_proof hproof
    obtain ⟨hw, hnotices⟩ := step_proof_eq_ok.1 hok
    rw [takeProof_eq_ok h.publicTerms_eq_commitments] at hw
    obtain ⟨qual, c, c₀, -, -, -, -, -, -, -, rfl⟩ := hw
    exact ⟨rfl, rfl, rfl, hnotices⟩
  · obtain ⟨-, -, -, hshares, huSet, hkey, hnotices⟩ := step_early_frame h hok hproof hne
    exact ⟨huSet, hshares, hkey, hnotices⟩

/-- QUAL is looked for on a vector and on a rebuttal only -/
theorem step_qual_frame {j : Index} {payload : Payload F G} {notices : List Notice} (h : Valid p v)
    (hok : v.step p j payload = .ok (v', notices)) (hvector : payload.opcode ≠ .verification)
    (hrebuttal : payload.opcode ≠ .rebuttal) : v'.qual = v.qual := by
  cases payload with
  | contribution c =>
    obtain ⟨hw, -⟩ := step_contribution_eq_ok.1 hok
    rw [takeContribution_eq_ok h.commitments_eq_seen] at hw
    obtain ⟨-, rfl⟩ := hw
    rfl
  | verification statuses => exact absurd rfl hvector
  | rebuttal r => exact absurd rfl hrebuttal
  | proof π =>
    obtain ⟨hw, -⟩ := step_proof_eq_ok.1 hok
    rw [takeProof_eq_ok h.publicTerms_eq_commitments] at hw
    obtain ⟨qual, c, c₀, -, -, -, -, -, -, -, rfl⟩ := hw
    rfl
  | bulkProof b => rw [h.takeBulkProof_frame hok]

/-- **No message of a shareholder crashes a valid view.** -/
theorem Valid.step_ne_crash (h : Valid p v) (hp : p.Admissible) {j : Index} (hj : j.toNat < p.n)
    (payload : Payload F G) : v.step p j payload ≠ .error .crash := by
  have hseen : j.toNat < v.seen.length := h.seen_length ▸ hj
  have hcommitments : j.toNat < v.commitments.length := h.commitments_length ▸ hj
  have hrow : (v.verdicts.hasRow? j).isSome := by
    simp [StatusMatrix.hasRow?, h.rows_length, hj]
  cases payload with
  | contribution c =>
    refine bind_ne_crash ?_ fun _ _ => pure_ne_crash
    refine bind_ne_crash (entry_ne_crash hseen) fun _ _ => bind_ne_crash require_ne_crash fun _ _ => ?_
    refine bind_ne_crash (replace_ne_crash hseen) fun _ _ => ?_
    split
    · exact bind_ne_crash (replace_ne_crash hcommitments) fun _ _ => pure_ne_crash
    · exact pure_ne_crash
  | verification statuses =>
    refine bind_ne_crash ?_ fun _ _ => pure_ne_crash
    refine bind_ne_crash (present_ne_crash hrow) fun _ _ => bind_ne_crash require_ne_crash fun _ _ => ?_
    refine bind_ne_crash require_ne_crash fun _ _ => bind_ne_crash (present_ne_crash ?_) fun _ _ => pure_ne_crash
    simp [StatusMatrix.setRow?, h.rows_length, hj]
  | rebuttal r =>
    refine bind_ne_crash ?_ fun _ _ => pure_ne_crash
    refine bind_ne_crash require_ne_crash fun _ haccuser => ?_
    have haccuser := require_eq_ok.1 haccuser
    refine bind_ne_crash (present_ne_crash (by simp [StatusMatrix.hasRow?, h.rows_length, haccuser])) fun _ _ => ?_
    refine bind_ne_crash require_ne_crash fun _ _ => bind_ne_crash require_ne_crash fun _ _ => ?_
    refine bind_ne_crash (entry_ne_crash hcommitments) fun _ _ => bind_ne_crash known_ne_crash fun _ _ => ?_
    exact bind_ne_crash require_ne_crash fun _ _ => bind_ne_crash require_ne_crash fun _ _ => pure_ne_crash
  | proof π =>
    refine bind_ne_crash ?_ fun _ _ => pure_ne_crash
    refine bind_ne_crash known_ne_crash fun q hq => bind_ne_crash require_ne_crash fun _ _ => ?_
    refine bind_ne_crash (entry_ne_crash hcommitments) fun c hc => bind_ne_crash known_ne_crash fun c' hc' => ?_
    rw [entry_eq_ok] at hc
    rw [known_eq_ok] at hq hc'
    subst hc'
    refine bind_ne_crash require_ne_crash fun _ _ => ?_
    refine bind_ne_crash (present_ne_crash (h.constant_isSome hp hc)) fun _ _ => ?_
    split
    · exact refuse_ne_crash
    · refine bind_ne_crash (minus_ne_crash ?_) fun _ _ => bind_ne_crash (replace_ne_crash ?_) fun _ _ => pure_ne_crash
      · rw [h.qual_size hq]
        exact Nat.le_succ _
      · exact h.publicTerms_length ▸ hj
  | bulkProof b =>
    unfold step takeBulkProof
    split_ifs
    · exact pure_ne_crash
    · refine bind_ne_crash (entry_ne_crash hcommitments) fun c _ => bind_ne_crash require_ne_crash fun _ _ => ?_
      refine bind_ne_crash known_ne_crash fun r hr => bind_ne_crash require_ne_crash fun _ hkeys => ?_
      rw [known_eq_ok] at hr
      rw [require_eq_ok] at hkeys
      obtain ⟨q, hq, hsub⟩ := h.rSet_subset r hr
      refine bind_ne_crash (openShares_ne_crash fun e he => ?_) fun points _ => ?_
      · have hmem : e.1 ∈ r.elems := hkeys ▸ List.mem_map_of_mem he
        exact h.commitments_length ▸ (h.qual_endorsed hq (hsub _ hmem)).1
      · refine bind_ne_crash require_ne_crash fun _ _ => ?_
        refine bind_ne_crash (replace_ne_crash (h.provenShares_length ▸ hj)) fun table htable => ?_
        obtain ⟨-, rfl⟩ := replace_eq_ok.1 htable
        dsimp only
        split_ifs
        · exact ((h.withBulkProof hj points).answers_reconstruct p.k).ne_crash
        · exact pure_ne_crash

end

end View

end DistributedKey
