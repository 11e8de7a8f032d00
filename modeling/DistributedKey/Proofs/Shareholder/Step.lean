/-
What a shareholder can do when its view has taken a message in.

- `announce_cases`, `tryFinalShare_cases`, `onQual_cases`: the pieces of a reaction.
- `onContribution_cases`, `onVerification_cases`, `onRebuttal_cases`, `onProof_cases`: the reactions, each by what it
  has checked and what it leaves.
- `react_opcode`, `react_notices`: the kinds of message that a reaction answers by, and what it reports.
- `react_view`, `react_identity`: no reaction changes the view or who the shareholder is.
- `react_alerts`, `onContribution_rejected`: no reaction raises an alert but that to a contribution judged invalid, and
  this one does nothing else than mark the dealer.
-/
import DistributedKey.Proofs.View.Valid
import DistributedKey.Shareholder.Dealing
import DistributedKey.Shareholder.Delivery

namespace DistributedKey

open Checked

variable {F G : Type}

/-- who a shareholder is: what it was made with and never changes -/
structure Identity (F G : Type) where
  index : Index
  privateKey : F
  group : Group G
  behavior : Behavior
  f1 : Poly F
  f2 : Poly F

namespace Shareholder

def identity (s : Shareholder F G) : Identity F G := ⟨s.index, s.privateKey, s.group, s.behavior, s.f1, s.f2⟩

theorem index_eq_of_identity {s t : Shareholder F G} (h : s.identity = t.identity) : s.index = t.index :=
  congrArg Identity.index h

theorem params_eq_of_identity {s t : Shareholder F G} (h : s.identity = t.identity) : s.params = t.params :=
  congrArg (fun i : Identity F G => i.group.params) h

section

variable [Suite F G] [NatCast F] [Zero F] [Add F] [SMul F F] [Zero G] [Add G] [SMul F G] [Wire F] [Wire G] [Sampled F]

@[simp] theorem contribute_identity (s : Shareholder F G) : s.contribute.2.identity = s.identity := by
  unfold contribute
  split_ifs <;> rfl

@[simp] theorem contribute_view (s : Shareholder F G) : s.contribute.2.view = s.view := by
  unfold contribute
  split_ifs <;> rfl

@[simp] theorem contribute_ownStatuses (s : Shareholder F G) : s.contribute.2.ownStatuses = s.ownStatuses := by
  unfold contribute
  split_ifs <;> rfl

@[simp] theorem contribute_shares (s : Shareholder F G) : s.contribute.2.shares = s.shares := by
  unfold contribute
  split_ifs <;> rfl

@[simp] theorem contribute_finalShare (s : Shareholder F G) : s.contribute.2.finalShare = s.finalShare := by
  unfold contribute
  split_ifs <;> rfl

@[simp] theorem contribute_vectorSent (s : Shareholder F G) : s.contribute.2.vectorSent = s.vectorSent := by
  unfold contribute
  split_ifs <;> rfl

@[simp] theorem contribute_alerts (s : Shareholder F G) : s.contribute.2.alerts = s.alerts := by
  unfold contribute
  split_ifs <;> rfl

@[simp] theorem contributed_contribute (s : Shareholder F G) : s.contribute.2.contributed = true := by
  unfold contribute
  split_ifs with h
  · exact h
  · rfl
  · rfl

/-- who has dealt, or is silent, deals nothing -/
theorem contribute_none {s : Shareholder F G} (h : s.contributed = true ∨ s.behavior = .silent) : s.contribute.1 = none := by
  unfold contribute
  split_ifs with hcontributed hsilent
  · rfl
  · rfl
  · rcases h with h | h
    · exact absurd h hcontributed
    · exact absurd (Or.inl h) hsilent

/-- and all that is dealt is a contribution -/
theorem contribute_opcode (s : Shareholder F G) : ∀ y ∈ s.contribute.1.toList, y.opcode = .contribution := by
  unfold contribute
  split_ifs <;> simp [Payload.opcode]

end

section

variable {s s' : Shareholder F G} {before : View G} {out : List (Payload F G)} {r : Response F G}

/-! ## pieces of a reaction -/

theorem announce_cases (h : s.announce = .ok (s', out)) :
    (s.vectorSent = true ∨ s.ownStatuses.count (some .success) < s.params.n - s.params.f) ∧ s' = s ∧ out = [] ∨
      s.vectorSent = false ∧ s.params.n - s.params.f ≤ s.ownStatuses.count (some .success) ∧
        s' = { s with vectorSent := true } ∧ out = [.verification s.ownStatuses] := by
  unfold announce at h
  split_ifs at h with hsent
  · simp only [pure_eq_ok, Prod.mk.injEq] at h
    exact Or.inl ⟨Or.inl hsent, h.1.symm, h.2.symm⟩
  · simp only [bind_eq_ok, minus_eq_ok] at h
    obtain ⟨_, ⟨-, rfl⟩, h⟩ := h
    split_ifs at h with hcount <;> simp only [pure_eq_ok, Prod.mk.injEq] at h
    · exact Or.inr ⟨by simpa using hsent, hcount, h.1.symm, h.2.symm⟩
    · exact Or.inl ⟨Or.inr (by omega), h.1.symm, h.2.symm⟩

theorem announce_frame (h : s.announce = .ok (s', out)) : s' = { s with vectorSent := s'.vectorSent } := by
  rcases announce_cases h with ⟨-, rfl, -⟩ | ⟨-, -, rfl, -⟩ <;> rfl

/-- the share that a rebuttal of the own complaint reveals, taken over -/
def adopt (s : Shareholder F G) (accused : Index) (r : Rebuttal F) : Shareholder F G :=
  if r.accuser = s.index then
    { s with
      ownStatuses := s.ownStatuses.set accused.toNat (some .success)
      shares := s.shares.set accused.toNat (some r.share) }
  else s

@[simp] theorem adopt_view (s : Shareholder F G) (d : Index) (b : Rebuttal F) : (s.adopt d b).view = s.view := by
  unfold adopt
  split_ifs <;> rfl

@[simp] theorem adopt_identity (s : Shareholder F G) (d : Index) (b : Rebuttal F) :
    (s.adopt d b).identity = s.identity := by
  unfold adopt
  split_ifs <;> rfl

section

variable [Zero F] [Add F]

theorem tryFinalShare_cases (h : s.tryFinalShare = .ok s') :
    s' = s ∧ (s.finalShare = none → ∀ q, s.view.qual = some q → sumShares s.shares q.elems 0 0 = .ok none) ∨
      ∃ q value blinding, s.finalShare = none ∧ s.view.qual = some q ∧
        sumShares s.shares q.elems 0 0 = .ok (some (value, blinding)) ∧
        s' = { s with finalShare := some ⟨s.index, value, blinding⟩ } := by
  unfold tryFinalShare at h
  split_ifs at h with hfinal
  · simp only [pure_eq_ok] at h
    exact Or.inl ⟨h.symm, fun hn => by simp [hn] at hfinal⟩
  · split at h
    · rename_i hq
      simp only [pure_eq_ok] at h
      exact Or.inl ⟨h.symm, fun _ q hq' => by rw [hq] at hq'; cases hq'⟩
    · rename_i q hq
      simp only [bind_eq_ok] at h
      obtain ⟨sum, hsum, h⟩ := h
      split at h <;> simp only [pure_eq_ok] at h
      · exact Or.inr ⟨q, _, _, by simpa using hfinal, hq, hsum, h.symm⟩
      · exact Or.inl ⟨h.symm, fun _ q' hq' => by rw [hq] at hq'; cases hq'; exact hsum⟩

/-- a try for the final share touches nothing else -/
theorem tryFinalShare_frame (h : s.tryFinalShare = .ok s') : s' = { s with finalShare := s'.finalShare } := by
  rcases tryFinalShare_cases h with ⟨rfl, -⟩ | ⟨q, value, blinding, -, -, -, rfl⟩ <;> rfl

variable [Suite F G] [Sub F] [Mul F] [SMul F G] [Wire G] [Sampled F]

theorem onQual_cases (h : s.onQual before = .ok (s', out)) :
    (before.qual.isSome ∨ s.view.qual = none) ∧ s' = s ∧ out = [] ∨
      ∃ q s₁, before.qual = none ∧ s.view.qual = some q ∧ s.tryFinalShare = .ok s₁ ∧
        (s.index ∉ q ∧ s' = s₁ ∧ out = [] ∨
          s.index ∈ q ∧ ∃ a b, s.f1.constant? = some a ∧ s.f2.constant? = some b ∧
            s' = { s₁ with rng := (Opening.prove (G := G) a b s.rng).2 } ∧
            out = [.proof (Opening.prove a b s.rng).1]) := by
  unfold onQual at h
  split at h
  · rename_i q hbefore hq
    simp only [bind_eq_ok] at h
    obtain ⟨s₁, hfinal, h⟩ := h
    have hframe := tryFinalShare_frame hfinal
    have hindex : s₁.index = s.index := by rw [hframe]
    refine Or.inr ⟨q, s₁, hbefore, hq, hfinal, ?_⟩
    split_ifs at h with hmem
    · simp only [bind_eq_ok, present_eq_ok, pure_eq_ok, Prod.mk.injEq] at h
      obtain ⟨a, ha, b, hb, rfl, rfl⟩ := h
      rw [hframe] at ha hb hmem ⊢
      exact Or.inr ⟨hmem, a, b, ha, hb, rfl, rfl⟩
    · simp only [pure_eq_ok, Prod.mk.injEq] at h
      exact Or.inl ⟨hindex ▸ hmem, h.1.symm, h.2.symm⟩
  · rename_i hnot
    simp only [pure_eq_ok, Prod.mk.injEq] at h
    refine Or.inl ⟨?_, h.1.symm, h.2.symm⟩
    rcases hb : before.qual with _ | q
    · rcases hs : s.view.qual with _ | q
      · exact Or.inr rfl
      · exact absurd hs (hnot q hb)
    · exact Or.inl rfl

/-- what follows from a frozen QUAL touches the final share and the randomness only -/
theorem onQual_frame (h : s.onQual before = .ok (s', out)) :
    s' = { s with finalShare := s'.finalShare, rng := s'.rng } := by
  rcases onQual_cases h with ⟨-, rfl, -⟩ | ⟨q, s₁, -, -, hfinal, ⟨-, rfl, -⟩ | ⟨-, a, b, -, -, rfl, -⟩⟩
  · rfl
  · rw [tryFinalShare_frame hfinal]
  · rw [tryFinalShare_frame hfinal]

/-- what a try for the final share keeps, and randomness has no part in, is kept when QUAL is frozen -/
theorem onQual_keeps {P : Shareholder F G → Prop} (hs : P s) (htry : ∀ s₁, s.tryFinalShare = .ok s₁ → P s₁)
    (hrng : ∀ s₁ rng, P s₁ → P { s₁ with rng }) (h : s.onQual before = .ok (s', out)) : P s' := by
  rcases onQual_cases h with ⟨-, rfl, -⟩ | ⟨q, s₁, -, -, hfinal, ⟨-, rfl, -⟩ | ⟨-, a, b, -, -, rfl, -⟩⟩
  · exact hs
  · exact htry s' hfinal
  · exact hrng s₁ _ (htry s₁ hfinal)

/-- all that a frozen QUAL is answered with is a proof -/
theorem onQual_opcode (h : s.onQual before = .ok (s', out)) : ∀ y ∈ out, y.opcode = .proof := by
  rcases onQual_cases h with ⟨-, -, rfl⟩ | ⟨q, s₁, -, -, -, ⟨-, -, rfl⟩ | ⟨-, a, b, -, -, -, rfl⟩⟩
  · simp
  · simp
  · simp [Payload.opcode]

/-- a constant term is proved as QUAL is frozen, by a member of it -/
theorem onQual_proves {y : Payload F G} (h : s.onQual before = .ok (s', out)) (hy : y ∈ out) :
    before.qual = none ∧ ∃ q, s.view.qual = some q ∧ s.index ∈ q := by
  rcases onQual_cases h with ⟨-, -, rfl⟩ | ⟨q, s₁, hbefore, hq, -, ⟨-, -, rfl⟩ | ⟨hmem, -⟩⟩
  · cases hy
  · cases hy
  · exact ⟨hbefore, q, hq, hmem⟩

end

/-! ## reactions -/

section

variable [Suite F G] [NatCast F] [Zero G] [Add G] [SMul F G] [Wire F] [Wire G] [DecidableEq G]

theorem onContribution_cases {d : Index} {c : Contribution G} (h : s.onContribution d c = .ok r) :
    d.toNat < s.ownStatuses.length ∧
      ((∃ cause, s.judge c = .error cause ∧
          r = refused { s with ownStatuses := s.ownStatuses.set d.toNat (some .complaint) } d cause) ∨
        ∃ pair s₁ out, s.judge c = .ok pair ∧ d.toNat < s.shares.length ∧
          announce { s with
            ownStatuses := s.ownStatuses.set d.toNat (some .success)
            shares := s.shares.set d.toNat (some pair) } = .ok (s₁, out) ∧
          r = ⟨s₁, out, []⟩) := by
  unfold onContribution at h
  split at h
  · rename_i pair hjudge
    simp only [bind_eq_ok, replace_eq_ok, pure_eq_ok, Prod.exists] at h
    obtain ⟨_, ⟨hd, rfl⟩, _, ⟨hd', rfl⟩, s₁, out, hannounce, h⟩ := h
    exact ⟨hd, Or.inr ⟨pair, s₁, out, hjudge, hd', hannounce, h.symm⟩⟩
  · rename_i cause hjudge
    simp only [bind_eq_ok, replace_eq_ok, pure_eq_ok] at h
    obtain ⟨_, ⟨hd, rfl⟩, h⟩ := h
    exact ⟨hd, Or.inl ⟨cause, hjudge, h.symm⟩⟩

theorem onContribution_frame {d : Index} {c : Contribution G} (h : s.onContribution d c = .ok r) :
    r.shareholder = { s with
      ownStatuses := r.shareholder.ownStatuses
      shares := r.shareholder.shares
      vectorSent := r.shareholder.vectorSent
      alerts := r.shareholder.alerts } := by
  obtain ⟨-, ⟨cause, -, rfl⟩ | ⟨pair, s₁, out, -, -, hannounce, rfl⟩⟩ := onContribution_cases h
  · rfl
  · rw [announce_frame hannounce]

/-- a contribution that is judged valid raises none either -/
theorem onContribution_alerts {d : Index} {c : Contribution G} {pair : SharePair F} (h : s.onContribution d c = .ok r)
    (hjudge : s.judge c = .ok pair) :
    r.shareholder.alerts = s.alerts := by
  obtain ⟨-, ⟨cause, hjudge', -⟩ | ⟨pair, s₁, out, -, -, hannounce, rfl⟩⟩ := onContribution_cases h
  · rw [hjudge] at hjudge'
    cases hjudge'
  · dsimp only
    rw [announce_frame hannounce]

/-- one that is judged invalid is a complaint from then on, and is not answered -/
theorem onContribution_rejected {d : Index} {c : Contribution G} {cause : Violation} (h : s.onContribution d c = .ok r)
    (hjudge : s.judge c = .error cause) :
    r = refused { s with ownStatuses := s.ownStatuses.set d.toNat (some .complaint) } d cause := by
  obtain ⟨-, ⟨cause', hjudge', rfl⟩ | ⟨pair, s₁, out, hjudge', -, -, -⟩⟩ := onContribution_cases h
  · rw [hjudge] at hjudge'
    obtain rfl := Except.error.inj hjudge'
    rfl
  · rw [hjudge] at hjudge'
    cases hjudge'

end

section

variable [Suite F G] [Sub F] [Mul F] [SMul F G] [Wire G] [Sampled F]

theorem onProof_cases (h : s.onProof before = .ok r) :
    (before.rSet.isSome ∨ s.view.rSet = none) ∧ r = ⟨s, [], []⟩ ∨
      ∃ q proofs rng, before.rSet = none ∧ s.view.rSet = some q ∧
        proveShares s.shares q.elems s.rng = .ok (proofs, rng) ∧
        (proofs = none ∧ r = ⟨{ s with rng }, [], [.missingShareOfR]⟩ ∨
          ∃ l, proofs = some l ∧ r = ⟨{ s with rng }, [.bulkProof ⟨.ofList l⟩], []⟩) := by
  unfold onProof at h
  split at h
  · rename_i q hbefore hr
    simp only [bind_eq_ok, Prod.exists] at h
    obtain ⟨proofs, rng, hprove, h⟩ := h
    refine Or.inr ⟨q, proofs, rng, hbefore, hr, hprove, ?_⟩
    split at h <;> simp only [pure_eq_ok] at h
    · exact Or.inr ⟨_, rfl, h.symm⟩
    · exact Or.inl ⟨rfl, h.symm⟩
  · rename_i hnot
    simp only [pure_eq_ok] at h
    refine Or.inl ⟨?_, h.symm⟩
    rcases hb : before.rSet with _ | q
    · rcases hs : s.view.rSet with _ | q
      · exact Or.inr rfl
      · exact absurd hs (hnot q hb)
    · exact Or.inl rfl

theorem onProof_frame (h : s.onProof before = .ok r) : r.shareholder = { s with rng := r.shareholder.rng } := by
  rcases onProof_cases h with ⟨-, rfl⟩ | ⟨q, proofs, rng, -, -, -, ⟨-, rfl⟩ | ⟨l, -, rfl⟩⟩ <;> rfl

variable [Zero F] [Add F]

theorem onRebuttal_cases {d : Index} {b : Rebuttal F} (h : s.onRebuttal before d b = .ok r) :
    ∃ s₁ s₂ out, (s.adopt d b).onQual before = .ok (s₁, out) ∧ s₁.tryFinalShare = .ok s₂ ∧ r = ⟨s₂, out, []⟩ ∧
      (b.accuser = s.index → d.toNat < s.ownStatuses.length ∧ d.toNat < s.shares.length) := by
  unfold onRebuttal at h
  by_cases hown : b.accuser = s.index
  · simp only [hown, ↓reduceIte, bind_eq_ok, replace_eq_ok, pure_eq_ok, Prod.exists] at h
    obtain ⟨_, ⟨hd, rfl⟩, _, ⟨hd', rfl⟩, s₀, rfl, s₁, out, hqual, s₂, hfinal, h⟩ := h
    exact ⟨s₁, s₂, out, by rw [adopt, if_pos hown]; exact hqual, hfinal, h.symm, fun _ => ⟨hd, hd'⟩⟩
  · simp only [hown, ↓reduceIte, bind_eq_ok, pure_eq_ok, Prod.exists] at h
    obtain ⟨s₀, rfl, s₁, out, hqual, s₂, hfinal, h⟩ := h
    exact ⟨s₁, s₂, out, by rw [adopt, if_neg hown]; exact hqual, hfinal, h.symm, fun h => absurd h hown⟩

theorem onRebuttal_frame {d : Index} {b : Rebuttal F} (h : s.onRebuttal before d b = .ok r) :
    r.shareholder = { s.adopt d b with finalShare := r.shareholder.finalShare, rng := r.shareholder.rng } := by
  obtain ⟨s₁, s₂, out, hqual, hfinal, rfl, -⟩ := onRebuttal_cases h
  dsimp only
  rw [tryFinalShare_frame hfinal, onQual_frame hqual]

variable [NatCast F] [SMul F F]

/-- the answer to a vector whose cell for the reader is `own` -/
def rebuttalsTo (s : Shareholder F G) (reporter : Index) (own : Option Status) : List (Payload F G) :=
  if own = some .complaint then [.rebuttal ⟨reporter, pairFor s.f1 s.f2 reporter⟩] else []

theorem onVerification_cases {j : Index} {statuses : List (Option Status)}
    (h : s.onVerification before j statuses = .ok r) :
    ∃ own s₁ out, statuses[s.index.toNat]? = some own ∧ s.onQual before = .ok (s₁, out) ∧
      r = ⟨s₁, s.rebuttalsTo j own ++ out, []⟩ := by
  unfold onVerification at h
  simp only [bind_eq_ok, entry_eq_ok, pure_eq_ok, Prod.exists] at h
  obtain ⟨own, hown, s₁, out, hqual, h⟩ := h
  exact ⟨own, s₁, out, hown, hqual, h.symm⟩

theorem onVerification_frame {j : Index} {statuses : List (Option Status)}
    (h : s.onVerification before j statuses = .ok r) :
    r.shareholder = { s with finalShare := r.shareholder.finalShare, rng := r.shareholder.rng } := by
  obtain ⟨own, s₁, out, -, hqual, rfl⟩ := onVerification_cases h
  exact onQual_frame hqual

end

/-! ## any reaction -/

variable [Suite F G] [NatCast F] [Zero F] [Add F] [Sub F] [Mul F] [SMul F F] [Zero G] [Add G] [SMul F G]
  [Wire F] [Wire G] [Sampled F] [DecidableEq G]

/-- the kinds of message by which a message of a kind may be answered -/
def answers : Opcode → List Opcode
  | .contribution => [.verification]
  | .verification => [.rebuttal, .proof]
  | .rebuttal => [.proof]
  | .proof => [.bulkProof]
  | .bulkProof => []

/-- no reaction answers by another kind of message -/
theorem react_opcode {j : Index} {payload : Payload F G} (h : s.react before j payload = .ok r) :
    ∀ y ∈ r.outgoing, y.opcode ∈ answers payload.opcode := by
  intro y hy
  cases payload with
  | contribution c =>
    obtain ⟨-, ⟨cause, -, rfl⟩ | ⟨pair, s₁, out, -, -, hannounce, rfl⟩⟩ := onContribution_cases h
    · cases hy
    · rcases announce_cases hannounce with ⟨-, -, rfl⟩ | ⟨-, -, -, rfl⟩
      · cases hy
      · simp [List.mem_singleton.1 hy, answers, Payload.opcode]
  | verification statuses =>
    obtain ⟨own, s₁, out, -, hqual, rfl⟩ := onVerification_cases h
    rcases List.mem_append.1 hy with hy | hy
    · unfold rebuttalsTo at hy
      split_ifs at hy
      · simp [List.mem_singleton.1 hy, answers, Payload.opcode]
      · cases hy
    · rw [onQual_opcode hqual y hy]
      simp [answers, Payload.opcode]
  | rebuttal b =>
    obtain ⟨s₁, s₂, out, hqual, -, rfl, -⟩ := onRebuttal_cases h
    rw [onQual_opcode hqual y hy]
    simp [answers, Payload.opcode]
  | proof π =>
    rcases onProof_cases h with ⟨-, rfl⟩ | ⟨q, proofs, rng, -, -, -, ⟨-, rfl⟩ | ⟨l, -, rfl⟩⟩
    · cases hy
    · cases hy
    · simp [List.mem_singleton.1 hy, answers, Payload.opcode]
  | bulkProof b =>
    simp only [react, pure_eq_ok] at h
    subst h
    cases hy

/-- a reaction reports a violation by the sender or a missing share, and nothing about a reconstruction -/
theorem react_notices {j : Index} {payload : Payload F G} (h : s.react before j payload = .ok r) :
    ∀ notice ∈ r.notices, notice = .missingShareOfR ∨ ∃ cause, notice = .violated cause := by
  intro notice hnotice
  cases payload with
  | contribution c =>
    obtain ⟨-, ⟨cause, -, rfl⟩ | ⟨pair, s₁, out, -, -, -, rfl⟩⟩ := onContribution_cases h
    · exact Or.inr ⟨cause, List.mem_singleton.1 hnotice⟩
    · cases hnotice
  | verification statuses =>
    obtain ⟨own, s₁, out, -, -, rfl⟩ := onVerification_cases h
    cases hnotice
  | rebuttal b =>
    obtain ⟨s₁, s₂, out, -, -, rfl, -⟩ := onRebuttal_cases h
    cases hnotice
  | proof π =>
    rcases onProof_cases h with ⟨-, rfl⟩ | ⟨q, proofs, rng, -, -, -, ⟨-, rfl⟩ | ⟨l, -, rfl⟩⟩
    · cases hnotice
    · exact Or.inl (List.mem_singleton.1 hnotice)
    · cases hnotice
  | bulkProof b =>
    simp only [react, pure_eq_ok] at h
    subst h
    cases hnotice

variable {d : Index} {payload : Payload F G}

theorem react_view (h : s.react before d payload = .ok r) : r.shareholder.view = s.view := by
  cases payload with
  | contribution c => rw [onContribution_frame h]
  | verification statuses => rw [onVerification_frame h]
  | rebuttal b =>
    rw [onRebuttal_frame h]
    exact adopt_view s d b
  | proof π => rw [onProof_frame h]
  | bulkProof b =>
    simp only [react, pure_eq_ok] at h
    rw [← h]

theorem react_identity (h : s.react before d payload = .ok r) : r.shareholder.identity = s.identity := by
  cases payload with
  | contribution c => rw [onContribution_frame h]; rfl
  | verification statuses => rw [onVerification_frame h]; rfl
  | rebuttal b =>
    rw [onRebuttal_frame h]
    exact adopt_identity s d b
  | proof π => rw [onProof_frame h]; rfl
  | bulkProof b =>
    simp only [react, pure_eq_ok] at h
    rw [← h]

theorem react_contributed (h : s.react before d payload = .ok r) : r.shareholder.contributed = s.contributed := by
  cases payload with
  | contribution c => rw [onContribution_frame h]
  | verification statuses => rw [onVerification_frame h]
  | rebuttal b =>
    rw [onRebuttal_frame h]
    unfold adopt
    split_ifs <;> rfl
  | proof π => rw [onProof_frame h]
  | bulkProof b =>
    simp only [react, pure_eq_ok] at h
    rw [← h]

/-- no reaction raises an alert but that to a contribution -/
theorem react_alerts (h : s.react before d payload = .ok r) (hkind : payload.opcode ≠ .contribution) :
    r.shareholder.alerts = s.alerts := by
  cases payload with
  | contribution c => exact absurd rfl hkind
  | verification statuses => rw [onVerification_frame h]
  | rebuttal b =>
    rw [onRebuttal_frame h]
    unfold adopt
    split_ifs <;> rfl
  | proof π => rw [onProof_frame h]
  | bulkProof b =>
    simp only [react, pure_eq_ok] at h
    rw [← h]

end

end Shareholder

end DistributedKey
