/-
What a shareholder announces, and what it takes over when its complaint is answered.

- `Delivered.announced`: a vector is the judgments of the moment, of which at least `n - f` are successes.
- `History.announced_once`: whenever a shareholder deals, and however far it reads, it announces one vector.
- `Delivered.proves`, `Delivered.provesShares`: a constant term is proved as QUAL is frozen, shares as R is.
- `History.qual_of_proves`: nothing is proved before QUAL is frozen.
- `Authentic.vector`: a vector in its name on an authentic log is the one it announced.
- `Delivered.adopted`, `Delivered.share_kept`: the share that a rebuttal of the own complaint reveals is taken over, and
  stays from then on.
-/
import DistributedKey.Proofs.Codec
import DistributedKey.Proofs.Session
import DistributedKey.Proofs.ShareTable
import DistributedKey.Proofs.Shareholder.Alike

namespace DistributedKey

open Checked

variable {F G : Type}
variable [Suite F G] [NatCast F] [Zero F] [One F] [Add F] [Sub F] [Mul F] [Inv F] [SMul F F] [Zero G] [Add G]
  [SMul F G] [Wire F] [Wire G] [Sampled F] [DecidableEq F] [DecidableEq G]

namespace Shareholder

variable {s : Shareholder F G} {e : Envelope} {r : Response F G} {statuses : List (Option Status)}

/-! ## one entry -/

/-- a vector is announced on a contribution, once, and is the judgments as they are then -/
theorem Delivered.announced (h : Delivered s e r) (hout : .verification statuses ∈ r.outgoing) :
    statuses = r.shareholder.ownStatuses ∧ s.params.n - s.params.f ≤ statuses.count (some .success) ∧
      s.vectorSent = false ∧ r.shareholder.vectorSent = true := by
  obtain ⟨payload, view, r', -, hreact, hshareholder, hout⟩ := h.of_mem_outgoing hout
  rw [hshareholder]
  have hanswers := react_opcode hreact _ hout
  cases payload with
  | contribution c =>
    obtain ⟨-, ⟨cause, -, rfl⟩ | ⟨pair, s₁, out, -, -, hannounce, rfl⟩⟩ := onContribution_cases hreact
    · exact absurd hout List.not_mem_nil
    · rcases announce_cases hannounce with ⟨-, -, rfl⟩ | ⟨hunsent, hcount, rfl, rfl⟩
      · exact absurd hout List.not_mem_nil
      · obtain rfl := Payload.verification.inj (List.mem_singleton.1 hout)
        exact ⟨rfl, hcount, hunsent, rfl⟩
  | verification _ | rebuttal _ | proof _ | bulkProof _ => simp [answers, Payload.opcode] at hanswers

/-- a vector that is sent stays sent -/
theorem Delivered.vectorSent (h : Delivered s e r) (hsent : s.vectorSent = true) : r.shareholder.vectorSent = true := by
  rcases h.tables_cases with ⟨-, -, hsame⟩ | ⟨c, view, -, -, ⟨cause, -, -, -, hsame⟩ | ⟨pair, -, -, -, hkept⟩⟩ |
    ⟨b, view, -, -, -, -, -, hsame⟩
  · rw [hsame, hsent]
  · rw [hsame, hsent]
  · exact hkept hsent
  · rw [hsame, hsent]

/-- a rebuttal of the own complaint makes the dealer a success, and its share is taken over -/
theorem Delivered.adopted (h : Delivered s e r) {b : Rebuttal F} {view : View G} {notices : List Notice}
    (hpayload : e.payload = .ok (.rebuttal b : Payload F G)) (hsender : e.sender.toNat < s.params.n)
    (hstep : s.view.step s.params e.sender (.rebuttal b) = .ok (view, notices)) (hown : b.accuser = s.index)
    {d : Nat} (hd : e.sender.toNat = d) :
    r.shareholder.ownStatuses[d]? = some (some .success) ∧ r.shareholder.shares[d]? = some (some b.share) := by
  cases h with
  | refused cause hno => exact absurd hstep (hno _ _ hpayload hsender)
  | accepted hpayload' hsender' hstep' hreact =>
    obtain rfl := Except.ok.inj (hpayload'.symm.trans hpayload)
    have hframe := onRebuttal_frame hreact
    obtain ⟨-, -, -, -, -, -, hlt⟩ := onRebuttal_cases hreact
    obtain ⟨hlt, hlt'⟩ : e.sender.toNat < s.ownStatuses.length ∧ e.sender.toNat < s.shares.length := hlt hown
    dsimp only
    rw [hframe, adopt, if_pos hown, ← hd]
    change (s.ownStatuses.set _ _)[_]? = _ ∧ (s.shares.set _ _)[_]? = _
    rw [List.getElem?_set_self hlt, List.getElem?_set_self hlt']
    exact ⟨rfl, rfl⟩

/-- a share stays as it is once its dealer is a success in the own row -/
theorem Delivered.share_kept (h : Delivered s e r) (hv : s.Valid) (hs : s.Sound) {d : Nat} {pair : SharePair F}
    (hshare : s.shares[d]? = some (some pair)) (hcell : s.view.verdicts.cell s.index.toNat d = some .success) :
    r.shareholder.shares[d]? = some (some pair) := by
  rcases h.tables_cases with ⟨-, hsame, -⟩ | ⟨c, view, -, htake, ⟨cause, -, -, hsame, -⟩ | ⟨pair', -, -, hset, -⟩⟩ |
    ⟨b, view, -, htake, hown, -, hset, -⟩
  · rw [hsame, hshare]
  · rw [hsame, hshare]
  · -- the contribution is the first of its dealer, and this one was judged before
    have hne : e.sender.toNat ≠ d := by
      rintro rfl
      exact hs.unjudged hv htake ⟨_, (hs.success_iff _).2 ⟨pair, hshare⟩⟩
    rw [hset, List.getElem?_set_ne hne, hshare]
  · -- a rebuttal is taken in for a complaint only, and the own row has none about this dealer
    obtain ⟨-, hcomplaint, -⟩ := View.takeRebuttal_eq_ok.1 htake
    have hne : e.sender.toNat ≠ d := by
      rintro rfl
      rw [hown, hcell] at hcomplaint
      cases hcomplaint
    rw [hset, List.getElem?_set_ne hne, hshare]

theorem Delivered.proves (h : Delivered s e r) {π : Opening F G} (hout : .proof π ∈ r.outgoing) :
    s.view.qual = none ∧ ∃ q, r.shareholder.view.qual = some q ∧ s.index ∈ q := by
  obtain ⟨payload, view, r', -, hreact, hshareholder, hout⟩ := h.of_mem_outgoing hout
  have hview : r'.shareholder.view = view := react_view hreact
  have hanswers := react_opcode hreact _ hout
  rw [hshareholder, hview]
  cases payload with
  | verification statuses =>
    obtain ⟨own, s₁, out, -, hok, rfl⟩ := onVerification_cases hreact
    rcases List.mem_append.1 hout with hout | hout
    · unfold rebuttalsTo at hout
      split_ifs at hout <;> simp at hout
    · exact onQual_proves hok hout
  | rebuttal b =>
    obtain ⟨s₁, s₂, out, hok, -, rfl, -⟩ := onRebuttal_cases hreact
    obtain ⟨hbefore, q, hq, hmem⟩ := onQual_proves hok hout
    rw [adopt_view] at hq
    rw [index_eq_of_identity (adopt_identity _ _ _)] at hmem
    exact ⟨hbefore, q, hq, hmem⟩
  | contribution _ | proof _ | bulkProof _ => simp [answers, Payload.opcode] at hanswers

/-- shares are proved as R is frozen -/
theorem Delivered.provesShares (h : Delivered s e r) {b : BulkProof F G} (hout : .bulkProof b ∈ r.outgoing) :
    s.view.rSet = none ∧ r.shareholder.view.rSet.isSome := by
  obtain ⟨payload, view, r', -, hreact, hshareholder, hout⟩ := h.of_mem_outgoing hout
  have hview : r'.shareholder.view = view := react_view hreact
  have hanswers := react_opcode hreact _ hout
  rw [hshareholder, hview]
  cases payload with
  | proof π =>
    rcases onProof_cases hreact with ⟨-, rfl⟩ | ⟨q, proofs, rng, hbefore, hr, -⟩
    · cases hout
    · exact ⟨hbefore, Option.isSome_iff_exists.2 ⟨q, hr⟩⟩
  | contribution _ | verification _ | rebuttal _ | bulkProof _ => simp [answers, Payload.opcode] at hanswers

/-- nothing is proved before QUAL is frozen -/
theorem Delivered.qual_of_proves (h : Delivered s e r) (hv : s.Valid) {y : Payload F G} (hy : y ∈ r.outgoing)
    (hkind : y.opcode = .proof ∨ y.opcode = .bulkProof) : r.shareholder.view.qual.isSome := by
  rcases hkind with hkind | hkind
  · obtain ⟨π, rfl⟩ := Payload.exists_proof hkind
    obtain ⟨-, q, hq, -⟩ := h.proves hy
    exact Option.isSome_iff_exists.2 ⟨q, hq⟩
  · obtain ⟨b, rfl⟩ := Payload.exists_bulkProof hkind
    obtain ⟨q, hq⟩ := Option.isSome_iff_exists.1 (h.provesShares hy).2
    obtain ⟨q', hq', -⟩ := (h.valid hv).view.rSet_subset q hq
    exact Option.isSome_iff_exists.2 ⟨q', hq'⟩

end Shareholder

/-! ## histories -/

namespace History

variable {s₀ s t : Shareholder F G} {log read read' : List Envelope} {e : Envelope} {out out' : List (Payload F G)}
  {statuses statuses' : List (Option Status)}

/-- the share stays in every longer history -/
theorem share_kept (h₀ : s₀.Fresh) (hs : History s₀ read s out) (ht : History s₀ log t out') (hpre : read <+: log)
    {d : Nat} {pair : SharePair F} (hshare : s.shares[d]? = some (some pair))
    (hcell : s.view.verdicts.cell s₀.index.toNat d = some .success) : t.shares[d]? = some (some pair) := by
  obtain ⟨later, rfl⟩ := hpre
  obtain ⟨u, _, hu, -, -, -, hshare'⟩ := hs.extend h₀.valid (P := fun s => s.Sound ∧ s.index = s₀.index ∧
      s.view.verdicts.cell s₀.index.toNat d = some .success ∧ s.shares[d]? = some (some pair))
    ⟨hs.sound h₀, hs.index_eq h₀.valid, hcell, hshare⟩
    (fun s e r hv ⟨hsound, hindex, hcell, hshare⟩ hd =>
      ⟨hsound.delivered hv hd, (Shareholder.index_eq_of_identity hd.identity).trans hindex,
        (hd.settles hv).successes.cell _ _ hcell, hd.share_kept hv hsound hshare (hindex.symm ▸ hcell)⟩) later
  rw [(hu.alike h₀.valid ht).shares, hshare']

/-- a vector that was announced has a cell for each dealer and enough successes, and these are successes still -/
theorem announced (h₀ : s₀.Fresh) (h : History s₀ log s out) (hout : .verification statuses ∈ out) :
    statuses.length = s₀.params.n ∧ s₀.params.n - s₀.params.f ≤ statuses.count (some .success) ∧
      ∀ d : Nat, statuses[d]? = some (some .success) → s.ownStatuses[d]? = some (some .success) := by
  induction h with
  | start => exact absurd hout List.not_mem_nil
  | @deal _ s _ h ih =>
    rcases List.mem_append.1 hout with hout | hout
    · rw [Shareholder.contribute_ownStatuses]
      exact ih hout
    · cases s.contribute_opcode _ hout
  | @read _ s out e r h hr ih =>
    have hvalid := h.valid h₀.valid
    have hd := hvalid.delivered_of_deliver hr
    rcases List.mem_append.1 hout with hout | hout
    · obtain ⟨hlen, hcount, hsuccess⟩ := ih hout
      exact ⟨hlen, hcount, fun d hd' => Shareholder.success_persists hvalid (h.sound h₀) hd (hsuccess d hd')⟩
    · obtain ⟨rfl, hcount, -⟩ := hd.announced hout
      rw [h.params_eq h₀.valid] at hcount
      refine ⟨?_, hcount, fun _ hd' => hd'⟩
      exact ((h.read hr).valid h₀.valid).ownStatuses_length.trans (congrArg Params.n ((h.read hr).params_eq h₀.valid))

/-- nothing was proved before QUAL was frozen -/
theorem qual_of_proves (h₀ : s₀.Valid) (h : History s₀ log s out) {y : Payload F G} (hy : y ∈ out)
    (hkind : y.opcode = .proof ∨ y.opcode = .bulkProof) : s.view.qual.isSome := by
  have hother : y.opcode ≠ .contribution := by
    rcases hkind with hkind | hkind <;> simp [hkind]
  obtain ⟨before, e, t, out', r, hpre, ht, hr, hproof⟩ := h.exists_delivery hy hother
  have hfrozen := ((ht.valid h₀).delivered_of_deliver hr).qual_of_proves (ht.valid h₀) hproof hkind
  obtain ⟨q, hq⟩ := Option.isSome_iff_exists.1 hfrozen
  exact Option.isSome_iff_exists.2 ⟨q, ((ht.read hr).settles h₀ h hpre).qual q hq⟩

/-- whoever has announced a vector announces none later -/
theorem not_announced_later (h₀ : s₀.Valid) (hs : History s₀ read s out) {r : Shareholder.Response F G}
    (hr : s.deliver e = some r) (hout : .verification statuses ∈ r.outgoing) (hpre : read ++ [e] <+: read')
    (ht : History s₀ read' t out') {e' : Envelope} {r' : Shareholder.Response F G} (hr' : t.deliver e' = some r') :
    .verification statuses' ∉ r'.outgoing := by
  intro hout'
  obtain ⟨-, -, -, hsent⟩ := ((hs.valid h₀).delivered_of_deliver hr).announced hout
  obtain ⟨-, -, hunsent, -⟩ := ((ht.valid h₀).delivered_of_deliver hr').announced hout'
  obtain ⟨later, rfl⟩ := hpre
  obtain ⟨u, _, hu, hsent'⟩ := (hs.read hr).extend h₀ (P := fun s => s.vectorSent = true) hsent
    (fun _ _ _ _ hsent hd => hd.vectorSent hsent) later
  rw [(ht.alike h₀ hu).vectorSent, hunsent] at hsent'
  cases hsent'

/-- **A shareholder announces one vector**, whatever it reads of a log and whenever it deals. -/
theorem announced_once (h₀ : s₀.Valid) (hs : History s₀ read s out) (ht : History s₀ read' t out')
    (hread : read <+: log) (hread' : read' <+: log) (hout : .verification statuses ∈ out)
    (hout' : .verification statuses' ∈ out') : statuses = statuses' := by
  obtain ⟨before, e, u, o, r, hpre, hu, hr, hannounced⟩ := hs.exists_delivery hout (by simp [Payload.opcode])
  obtain ⟨before', e', u', o', r', hpre', hu', hr', hannounced'⟩ := ht.exists_delivery hout' (by simp [Payload.opcode])
  have hlog : before ++ [e] <+: log := hpre.trans hread
  have hlog' : before' ++ [e'] <+: log := hpre'.trans hread'
  rcases lt_trichotomy before.length before'.length with hlt | heq | hlt
  · have hearlier : before ++ [e] <+: before' :=
      List.prefix_of_prefix_length_le hlog ((List.prefix_append _ _).trans hlog') (by simpa using hlt)
    exact absurd hannounced' (hu.not_announced_later h₀ hr hannounced hearlier hu' hr')
  · have hsame : before ++ [e] = before' ++ [e'] :=
      (List.prefix_of_prefix_length_le hlog hlog' (by simp [heq])).eq_of_length (by simp [heq])
    obtain ⟨rfl, hentry⟩ := List.append_inj' hsame rfl
    obtain rfl := List.singleton_inj.1 hentry
    have halike := ((hu.read hr).alike h₀ (hu'.read hr')).ownStatuses
    obtain ⟨rfl, -⟩ := ((hu.valid h₀).delivered_of_deliver hr).announced hannounced
    obtain ⟨rfl, -⟩ := ((hu'.valid h₀).delivered_of_deliver hr').announced hannounced'
    exact halike.symm
  · have hearlier : before' ++ [e'] <+: before :=
      List.prefix_of_prefix_length_le hlog' ((List.prefix_append _ _).trans hlog) (by simpa using hlt)
    exact absurd hannounced (hu'.not_announced_later h₀ hr' hannounced' hearlier hu hr)

end History

/-- a vector in the name of a member was announced by it, before it stood on the log -/
theorem Authentic.vector {members : List (Shareholder F G)} {log before : List Envelope} {e : Envelope}
    {s₀ : Shareholder F G} {statuses : List (Option Status)} (hlog : Authentic members log) (hs₀ : s₀ ∈ members)
    (h₀ : s₀.Fresh) (hn : s₀.params.n < 2 ^ 64) (hpre : before ++ [e] <+: log) (hsender : e.sender = s₀.index)
    (hpayload : (e.payload : Except Violation (Payload F G)) = .ok (.verification statuses)) :
    ∃ read s out, read <+: before ∧ History s₀ read s out ∧ .verification statuses ∈ out := by
  obtain ⟨read, s, out, hread, hs, payload, hout, rfl⟩ := hlog before e hpre s₀ hs₀ hsender
  obtain ⟨sent, rfl, hsent⟩ := eq_of_payload_verification hpayload
  obtain rfl := hsent ((hs.announced h₀ hout).1 ▸ hn)
  exact ⟨read, s, out, hread, hs, hout⟩

end DistributedKey
