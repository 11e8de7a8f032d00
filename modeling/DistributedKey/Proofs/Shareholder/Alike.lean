/-
What a shareholder comes to hold depends on who it is and on the log alone.

`Alike s t`: the two are the same shareholder with the same view and the same tables; they may differ in randomness, in
alerts, and in whether they have dealt. Dealing leaves a shareholder alike (`alike_contribute`), and one entry makes
shareholders that are alike alike again (`Alike.deliver`). So two histories of one shareholder over one log end alike,
whenever it dealt in each (`History.alike`).
-/
import DistributedKey.Proofs.History

namespace DistributedKey

open Checked

variable {F G : Type}

namespace Shareholder

structure Alike (s t : Shareholder F G) : Prop where
  identity : t.identity = s.identity
  view : t.view = s.view
  ownStatuses : t.ownStatuses = s.ownStatuses
  vectorSent : t.vectorSent = s.vectorSent
  shares : t.shares = s.shares
  finalShare : t.finalShare = s.finalShare

section

variable {s t s' t' : Shareholder F G} {before : View G} {out out' : List (Payload F G)}

theorem Alike.refl (s : Shareholder F G) : Alike s s := ⟨rfl, rfl, rfl, rfl, rfl, rfl⟩

theorem Alike.symm (h : Alike s t) : Alike t s :=
  ⟨h.identity.symm, h.view.symm, h.ownStatuses.symm, h.vectorSent.symm, h.shares.symm, h.finalShare.symm⟩

theorem Alike.trans (h : Alike s t) (h' : Alike t s') : Alike s s' :=
  ⟨h'.identity.trans h.identity, h'.view.trans h.view, h'.ownStatuses.trans h.ownStatuses,
    h'.vectorSent.trans h.vectorSent, h'.shares.trans h.shares, h'.finalShare.trans h.finalShare⟩

theorem Alike.withView (h : Alike s t) (view : View G) : Alike { s with view } { t with view } := by
  obtain ⟨hidentity, -, hown, hsent, hshares, hfinal⟩ := h
  exact ⟨hidentity, rfl, hown, hsent, hshares, hfinal⟩

theorem Alike.withTables (h : Alike s t) {own own' : List (Option Status)}
    {shares shares' : List (Option (SharePair F))} (hown : own' = own) (hshares : shares' = shares) :
    Alike { s with ownStatuses := own, shares } { t with ownStatuses := own', shares := shares' } :=
  ⟨h.identity, h.view, hown, h.vectorSent, hshares, h.finalShare⟩

theorem Alike.refused (h : Alike s t) (d : Index) (cause cause' : Violation) :
    Alike (s.refused d cause).shareholder (t.refused d cause').shareholder :=
  ⟨h.identity, h.view, h.ownStatuses, h.vectorSent, h.shares, h.finalShare⟩

theorem Alike.index (h : Alike s t) : t.index = s.index := index_eq_of_identity h.identity

theorem Alike.params (h : Alike s t) : t.params = s.params := params_eq_of_identity h.identity

/-! ## the pieces of a reaction -/

theorem Alike.adopt (h : Alike s t) (d : Index) (b : Rebuttal F) : Alike (s.adopt d b) (t.adopt d b) := by
  have hindex := h.index
  by_cases hown : b.accuser = s.index
  · rw [Shareholder.adopt, Shareholder.adopt, if_pos hown, if_pos (hown.trans hindex.symm)]
    exact h.withTables (congrArg (·.set d.toNat (some .success)) h.ownStatuses)
      (congrArg (·.set d.toNat (some b.share)) h.shares)
  · rw [Shareholder.adopt, Shareholder.adopt, if_neg hown, if_neg fun hown' => hown (hown'.trans hindex)]
    exact h

theorem Alike.announce (h : Alike s t) (hs : s.announce = .ok (s', out)) (ht : t.announce = .ok (t', out')) :
    Alike s' t' := by
  rcases announce_cases hs with ⟨hno, rfl, -⟩ | ⟨hsent, hcount, rfl, -⟩
  · rcases announce_cases ht with ⟨-, rfl, -⟩ | ⟨hsent', hcount', -, -⟩
    · exact h
    · rw [h.vectorSent] at hsent'
      rw [h.ownStatuses, h.params] at hcount'
      rcases hno with hno | hno
      · rw [hsent'] at hno
        cases hno
      · omega
  · rcases announce_cases ht with ⟨hno', -, -⟩ | ⟨-, -, rfl, -⟩
    · rw [h.vectorSent, h.ownStatuses, h.params, hsent] at hno'
      rcases hno' with hno' | hno'
      · cases hno'
      · omega
    · exact ⟨h.identity, h.view, h.ownStatuses, rfl, h.shares, h.finalShare⟩

variable [Zero F] [Add F]

theorem Alike.tryFinalShare (h : Alike s t) (hs : s.tryFinalShare = .ok s') (ht : t.tryFinalShare = .ok t') :
    Alike s' t' := by
  rcases tryFinalShare_cases hs with ⟨rfl, hno⟩ | ⟨q, a, b, hnone, hq, hsum, rfl⟩
  · rcases tryFinalShare_cases ht with ⟨rfl, -⟩ | ⟨q, a, b, hnone, hq, hsum, -⟩
    · exact h
    · rw [h.finalShare] at hnone
      rw [h.view] at hq
      rw [h.shares, hno hnone q hq] at hsum
      cases hsum
  · rcases tryFinalShare_cases ht with ⟨-, hno⟩ | ⟨q', a', b', -, hq', hsum', rfl⟩
    · rw [h.finalShare, h.view, h.shares] at hno
      rw [hno hnone q hq] at hsum
      cases hsum
    · rw [h.view, hq] at hq'
      obtain rfl := Option.some.inj hq'
      rw [h.shares, hsum] at hsum'
      simp only [Except.ok.injEq, Option.some.injEq, Prod.mk.injEq] at hsum'
      obtain ⟨rfl, rfl⟩ := hsum'
      exact ⟨h.identity, h.view, h.ownStatuses, h.vectorSent, h.shares, by rw [h.index]⟩

variable [Suite F G] [Sub F] [Mul F] [SMul F G] [Wire G] [Sampled F]

theorem Alike.onQual (h : Alike s t) (hs : s.onQual before = .ok (s', out)) (ht : t.onQual before = .ok (t', out')) :
    Alike s' t' := by
  rcases onQual_cases hs with ⟨hno, rfl, -⟩ | ⟨q, s₁, hbefore, hq, hfinal, hs'⟩
  · rcases onQual_cases ht with ⟨-, rfl, -⟩ | ⟨q, t₁, hbefore, hq, -, -⟩
    · exact h
    · rw [h.view] at hq
      rw [hbefore, hq] at hno
      simp at hno
  · rcases onQual_cases ht with ⟨hno, -, -⟩ | ⟨q', t₁, -, -, hfinal', ht'⟩
    · rw [h.view, hbefore, hq] at hno
      simp at hno
    · have h₁ := h.tryFinalShare hfinal hfinal'
      have hs₁ : Alike s' s₁ := by
        rcases hs' with ⟨-, rfl, -⟩ | ⟨-, a, b, -, -, rfl, -⟩
        · exact .refl _
        · exact ⟨rfl, rfl, rfl, rfl, rfl, rfl⟩
      have ht₁ : Alike t₁ t' := by
        rcases ht' with ⟨-, rfl, -⟩ | ⟨-, a, b, -, -, rfl, -⟩
        · exact .refl _
        · exact ⟨rfl, rfl, rfl, rfl, rfl, rfl⟩
      exact hs₁.trans (h₁.trans ht₁)

end

/-! ## reactions and deliveries -/

section

variable [Suite F G] [NatCast F] [Zero G] [Add G] [SMul F G] [Wire F] [Wire G] [DecidableEq G]
  {s t : Shareholder F G} {r r' : Response F G}

theorem Alike.judge (h : Alike s t) (c : Contribution G) : t.judge c = s.judge c := by
  have hkey : t.privateKey = s.privateKey := congrArg Identity.privateKey h.identity
  unfold Shareholder.judge openShare
  rw [h.index, h.params, hkey]

theorem Alike.onContribution (h : Alike s t) {d : Index} {c : Contribution G} (hs : s.onContribution d c = .ok r)
    (ht : t.onContribution d c = .ok r') : Alike r.shareholder r'.shareholder := by
  obtain ⟨-, ⟨cause, hjudge, rfl⟩ | ⟨pair, s₁, out, hjudge, -, hannounce, rfl⟩⟩ := onContribution_cases hs
  · obtain ⟨-, ⟨cause', -, rfl⟩ | ⟨pair, t₁, out, hjudge', -, -, -⟩⟩ := onContribution_cases ht
    · have htables := h.withTables (congrArg (·.set d.toNat (some .complaint)) h.ownStatuses) h.shares
      exact htables.refused d cause cause'
    · rw [h.judge, hjudge] at hjudge'
      cases hjudge'
  · obtain ⟨-, ⟨cause', hjudge', -⟩ | ⟨pair', t₁, out', hjudge', -, hannounce', rfl⟩⟩ := onContribution_cases ht
    · rw [h.judge, hjudge] at hjudge'
      cases hjudge'
    · rw [h.judge, hjudge] at hjudge'
      obtain rfl := Except.ok.inj hjudge'
      have htables := h.withTables (congrArg (·.set d.toNat (some .success)) h.ownStatuses)
        (congrArg (·.set d.toNat (some pair)) h.shares)
      exact htables.announce hannounce hannounce'

end

variable [Suite F G] [NatCast F] [Zero F] [Add F] [Sub F] [Mul F] [SMul F F] [Zero G] [Add G] [SMul F G]
  [Wire F] [Wire G] [Sampled F] [DecidableEq G] {s t : Shareholder F G} {before : View G} {r r' : Response F G}

omit [Sub F] [Mul F] [DecidableEq G] in
theorem alike_contribute (s : Shareholder F G) : Alike s s.contribute.2 :=
  ⟨contribute_identity s, contribute_view s, contribute_ownStatuses s, contribute_vectorSent s, contribute_shares s,
    contribute_finalShare s⟩

theorem Alike.react (h : Alike s t) {d : Index} {payload : Payload F G} (hs : s.react before d payload = .ok r)
    (ht : t.react before d payload = .ok r') : Alike r.shareholder r'.shareholder := by
  cases payload with
  | contribution c => exact h.onContribution hs ht
  | verification statuses =>
    obtain ⟨own, s₁, out, -, hqual, rfl⟩ := onVerification_cases hs
    obtain ⟨own', t₁, out', -, hqual', rfl⟩ := onVerification_cases ht
    exact h.onQual hqual hqual'
  | rebuttal b =>
    obtain ⟨s₁, s₂, out, hqual, hfinal, rfl, -⟩ := onRebuttal_cases hs
    obtain ⟨t₁, t₂, out', hqual', hfinal', rfl, -⟩ := onRebuttal_cases ht
    exact ((h.adopt d b).onQual hqual hqual').tryFinalShare hfinal hfinal'
  | proof π =>
    rw [onProof_frame hs, onProof_frame ht]
    exact ⟨h.identity, h.view, h.ownStatuses, h.vectorSent, h.shares, h.finalShare⟩
  | bulkProof b =>
    simp only [Shareholder.react, pure_eq_ok] at hs ht
    rw [← hs, ← ht]
    exact h

variable [One F] [Inv F] [DecidableEq F] {e : Envelope}

/-- one entry, read by shareholders that are alike -/
theorem Alike.delivered (h : Alike s t) (hs : Delivered s e r) (ht : Delivered t e r') :
    Alike r.shareholder r'.shareholder := by
  cases hs with
  | refused cause hno =>
    cases ht with
    | refused cause' hno' => exact h.refused e.sender cause cause'
    | accepted hpayload hsender hstep hreact =>
      rw [h.view, h.params] at hstep
      exact absurd hstep (hno _ _ hpayload (h.params ▸ hsender))
  | @accepted payload view notices r hpayload hsender hstep hreact =>
    cases ht with
    | refused cause' hno' =>
      rw [h.view, h.params] at hno'
      exact absurd hstep (hno' _ _ hpayload hsender)
    | @accepted payload' view' notices' r' hpayload' hsender' hstep' hreact' =>
      obtain rfl := Except.ok.inj (hpayload.symm.trans hpayload')
      rw [h.view, h.params, hstep] at hstep'
      simp only [Except.ok.injEq, Prod.mk.injEq] at hstep'
      obtain ⟨rfl, rfl⟩ := hstep'
      rw [h.view] at hreact'
      have hreacted := (h.withView view).react hreact hreact'
      exact hreacted

end Shareholder

namespace History

variable [Suite F G] [NatCast F] [Zero F] [One F] [Add F] [Sub F] [Mul F] [Inv F] [SMul F F] [Zero G] [Add G]
  [SMul F G] [Wire F] [Wire G] [Sampled F] [DecidableEq F] [DecidableEq G]
  {s₀ s t : Shareholder F G} {log : List Envelope} {e : Envelope} {out out' : List (Payload F G)}

theorem alike_of_nil (h : History s₀ log t out) (hlog : log = []) : Shareholder.Alike s₀ t := by
  induction h with
  | start => exact .refl _
  | deal _ ih => exact (ih hlog).trans (Shareholder.alike_contribute _)
  | read _ _ _ => exact absurd hlog (List.concat_ne_nil _ _)

/-- whoever has read one entry more has read the log before it -/
theorem exists_before {full : List Envelope} (h : History s₀ full t out) (hfull : full = log ++ [e]) :
    ∃ s out₀ r, History s₀ log s out₀ ∧ s.deliver e = some r ∧ Shareholder.Alike r.shareholder t := by
  induction h with
  | start => exact absurd hfull.symm (List.concat_ne_nil _ _)
  | deal _ ih =>
    obtain ⟨s, out₀, r, hs, hr, halike⟩ := ih hfull
    exact ⟨s, out₀, r, hs, hr, halike.trans (Shareholder.alike_contribute _)⟩
  | read h hr _ =>
    obtain ⟨rfl, he⟩ := List.append_inj' hfull rfl
    obtain rfl := List.singleton_inj.1 he
    exact ⟨_, _, _, h, hr, .refl _⟩

/-- **What a shareholder comes to hold does not depend on when it deals.** -/
theorem alike (h₀ : s₀.Valid) (hs : History s₀ log s out) (ht : History s₀ log t out') : Shareholder.Alike s t := by
  induction hs generalizing t out' with
  | start => exact ht.alike_of_nil rfl
  | deal hs ih => exact (Shareholder.alike_contribute _).symm.trans (ih ht)
  | read hs hr ih =>
    obtain ⟨t₁, out₁, r', ht₁, hr', halike⟩ := ht.exists_before rfl
    have hdelivered := (hs.valid h₀).delivered_of_deliver hr
    have hdelivered' := (ht₁.valid h₀).delivered_of_deliver hr'
    exact ((ih ht₁).delivered hdelivered hdelivered').trans halike

end History

end DistributedKey
