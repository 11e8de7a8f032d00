/-
What a rejected entry leaves behind: an alert, and of a first contribution what marks its dealer.

An entry is rejected because the view takes nothing in, or because the share in a contribution is not a good one. There
are many ways to be rejected, at many depths of the handlers, and they all leave the same.

- `View.refusal?`, `Shareholder.violation?`: why an entry is rejected, if it is.
- `View.checkCommitments_eq_ok`: the commitments that are kept are `k` proper points.
- `Valid.deliver_of_refusal`, `Delivered.of_taken`: the two outcomes of a delivery, told by `refusal?`.
- `Rejected`: what a rejected entry leaves behind. `Delivered.rejected_or`: every delivery is rejected, or raises no alert.
- `rejected_unchanged`: so every delivery in every state that can be reached raises at most one alert, and one that does
  sends nothing, draws nothing, and changes nothing but this.
-/
import DistributedKey.Proofs.Codec
import DistributedKey.Proofs.History
import DistributedKey.Proofs.Silent.Uniform

namespace DistributedKey

open Checked

variable {F G : Type}

namespace View

/-! ## the view -/

section

variable [Suite F G] [Zero G] [DecidableEq G] {p : Params} {v : View G} {c : Poly G} {d : Nat}

/-- `k` points, none of them the identity, off the curve or outside of the subgroup -/
def Proper (k : Nat) (c : Poly G) : Prop :=
  c.length = k ∧ ∀ x ∈ c.coeffs, x ≠ 0 ∧ Suite.onCurve x = true ∧ Suite.inSubgroup x = true

instance (k : Nat) (c : Poly G) : Decidable (Proper k c) := inferInstanceAs (Decidable (_ ∧ _))

theorem improper_eq_false {x : G} :
    improper x = false ↔ x ≠ 0 ∧ Suite.onCurve x = true ∧ Suite.inSubgroup x = true := by
  simp [improper, and_assoc]

theorem checkCommitments_eq_ok {k : Nat} : checkCommitments k c = .ok () ↔ Proper k c := by
  unfold checkCommitments Proper
  split_ifs with hlen
  · constructor
    · intro h
      cases h
    · intro h
      exact absurd h.1 hlen
  · rw [and_iff_right (not_not.1 hlen)]
    simp only [← improper_eq_false]
    split
    · rename_i i hi
      obtain ⟨hlt, himproper, -⟩ := List.findIdx?_eq_some_iff_getElem.1 hi
      constructor
      · intro h
        cases h
      · intro h
        exact absurd himproper (by simp [h _ (List.getElem_mem hlt)])
    · rename_i hnone
      exact ⟨fun _ => List.findIdx?_eq_none_iff.1 hnone, fun _ => rfl⟩

/-- a dealer that was not seen has no commitments, and gets those it sends if they are proper -/
theorem Valid.keepCommitments_eq (h : Valid p v) (hseen : v.seen[d]? = some false) (c : Poly G) :
    keepCommitments p.k c d v.commitments = v.commitments.set d (if Proper p.k c then some c else none) := by
  have hlt : d < v.commitments.length := by
    rw [h.commitments_eq_seen]
    exact (List.getElem?_eq_some_iff.1 hseen).1
  have hnone : v.commitments[d] = none := by
    rcases hc : v.commitments[d] with _ | c'
    · rfl
    · obtain ⟨hseen', -⟩ := h.committed d c' (List.getElem?_eq_some_iff.2 ⟨hlt, hc⟩)
      rw [hseen] at hseen'
      cases hseen'
  unfold keepCommitments
  split
  · rename_i hcheck
    rw [if_pos (checkCommitments_eq_ok.1 hcheck)]
  · rename_i cause hcheck
    have himproper : ¬ Proper p.k c := fun hproper => by
      rw [checkCommitments_eq_ok.2 hproper] at hcheck
      cases hcheck
    rw [if_neg himproper, ← hnone, List.set_getElem_self]

end

variable [Suite F G] [NatCast F] [Zero F] [One F] [Sub F] [Mul F] [Inv F] [Zero G] [Add G] [SMul F G]
  [Wire F] [Wire G] [DecidableEq F] [DecidableEq G]
  {p : Params} {v : View G} {e : Envelope}

/-- why the view takes nothing in, if it does not -/
def refusal? (p : Params) (v : View G) (e : Envelope) : Option Violation :=
  match (e.payload : Except Violation (Payload F G)) with
  | .error cause => some cause
  | .ok payload =>
    if e.sender.toNat < p.n then
      match v.step p e.sender payload with
      | .error (.refused cause) => some cause
      | .error .crash => none
      | .ok _ => none
    else some (.unknownSender e.sender)

theorem Valid.refusal?_eq_none (h : Valid p v) (hp : p.Admissible) : v.refusal? p e = none ↔
    ∃ (payload : Payload F G) (out : View G × List Notice), e.payload = .ok payload ∧ e.sender.toNat < p.n ∧
      v.step p e.sender payload = .ok out := by
  unfold refusal?
  rcases hpayload : (e.payload : Except Violation (Payload F G)) with cause | payload
  · simp
  · by_cases hlt : e.sender.toNat < p.n
    · rcases hstep : v.step p e.sender payload with (cause | -) | ⟨v', notices⟩
      · simp [hlt, hstep]
      · exact absurd hstep (h.step_ne_crash hp hlt payload)
      · simp [hlt, hstep]
    · simp [hlt]

/-- the first contribution of a shareholder is never refused -/
theorem Valid.refusal?_of_unseen {c : Contribution G} (h : Valid p v) (hp : p.Admissible)
    (hpayload : e.payload = .ok (.contribution c : Payload F G)) (hlt : e.sender.toNat < p.n)
    (hseen : v.seen[e.sender.toNat]? = some false) : v.refusal? p e = none := by
  have htake := (takeContribution_eq_ok (p := p) (c := c) h.commitments_eq_seen).2 ⟨hseen, rfl⟩
  exact (h.refusal?_eq_none hp).2 ⟨_, (_, []), hpayload, hlt, step_contribution_eq_ok.2 ⟨htake, rfl⟩⟩

end View

namespace Shareholder

/-! ## the shareholder -/

section

variable [Suite F G] [Zero G] [Wire F] [Wire G] [DecidableEq G] {s : Shareholder F G} {e : Envelope}
  {c : Contribution G}

/-- the entry is the first contribution of its sender -/
def Introduces (s : Shareholder F G) (e : Envelope) (c : Contribution G) : Prop :=
  e.payload = .ok (.contribution c : Payload F G) ∧ e.sender.toNat < s.params.n ∧
    s.view.seen[e.sender.toNat]? = some false

/-- a dealer marked as seen and as a complaint, and its commitments kept if they are proper -/
def mark (s : Shareholder F G) (d : Index) (c : Contribution G) : Shareholder F G :=
  { s with
    view := { s.view with
      seen := s.view.seen.set d.toNat true
      commitments := s.view.commitments.set d.toNat
        (if View.Proper s.params.k c.commitments then some c.commitments else none) }
    ownStatuses := s.ownStatuses.set d.toNat (some .complaint) }

/-- of a marked dealer the commitments it sent are kept exactly if they are proper -/
theorem Introduces.kept_iff (hc : s.Introduces e c) (hv : s.Valid) :
    (s.mark e.sender c).view.commitments[e.sender.toNat]? = some (some c.commitments) ↔
      View.Proper s.params.k c.commitments := by
  have hlt : e.sender.toNat < s.view.commitments.length := hv.view.commitments_length ▸ hc.2.1
  rw [mark, List.getElem?_set_self hlt]
  split_ifs with hproper <;> simp [hproper]

end

variable [Suite F G] [NatCast F] [Zero F] [One F] [Add F] [Sub F] [Mul F] [Inv F] [SMul F F] [Zero G] [Add G]
  [SMul F G] [Wire F] [Wire G] [Sampled F] [DecidableEq F] [DecidableEq G]
  {s : Shareholder F G} {e : Envelope} {r : Response F G} {cause : Violation}

/-- what the shareholder finds wrong with a message that the view takes in -/
def flaw? (s : Shareholder F G) : Payload F G → Option Violation
  | .contribution c =>
    match s.judge c with
    | .error cause => some cause
    | .ok _ => none
  | _ => none

/-- why an entry is rejected, if it is: the view refuses it, or its contribution is judged invalid -/
def violation? (s : Shareholder F G) (e : Envelope) : Option Violation :=
  match s.view.refusal? s.params e with
  | some cause => some cause
  | none =>
    match (e.payload : Except Violation (Payload F G)) with
    | .ok payload => s.flaw? payload
    | .error _ => none

/-- what the view refuses leaves an alert -/
theorem Valid.deliver_of_refusal (h : s.Valid) (hcause : s.view.refusal? s.params e = some cause) :
    s.deliver e = some (s.refused e.sender cause) := by
  unfold View.refusal? at hcause
  rcases hpayload : (e.payload : Except Violation (Payload F G)) with cause' | payload
  · obtain rfl : cause' = cause := by simpa [hpayload] using hcause
    exact deliver_of_refused (by simp [handle, hpayload, refuse])
  · by_cases hlt : e.sender.toNat < s.params.n
    · rcases hstep : s.view.step s.params e.sender payload with (cause' | -) | out
      · obtain rfl : cause' = cause := by simpa [hpayload, hlt, hstep] using hcause
        exact deliver_of_refused (handle_of_step_error hpayload hlt hstep)
      · exact absurd hstep (h.view.step_ne_crash h.admissible hlt payload)
      · simp [hpayload, hlt, hstep] at hcause
    · obtain rfl : .unknownSender e.sender = cause := by simpa [hpayload, hlt] using hcause
      have hcontains : s.group.contains e.sender = false := decide_eq_false hlt
      exact deliver_of_refused (by simp [handle, hpayload, hcontains, require, refuse, bind, Except.bind])

/-- what it takes in makes the shareholder react -/
theorem Delivered.of_taken (h : Delivered s e r) (hv : s.Valid) (htaken : s.view.refusal? s.params e = none) :
    ∃ (payload : Payload F G) (view : View G) (notices : List Notice) (r' : Response F G), e.payload = .ok payload ∧
      e.sender.toNat < s.params.n ∧ s.view.step s.params e.sender payload = .ok (view, notices) ∧
        react { s with view } s.view e.sender payload = .ok r' ∧
          r = ⟨r'.shareholder, if s.behavior = .silent then [] else r'.outgoing, notices ++ r'.notices⟩ := by
  obtain ⟨payload, out, hpayload, hlt, hstep⟩ := (hv.view.refusal?_eq_none hv.admissible).1 htaken
  cases h with
  | refused cause hno => exact absurd hstep (hno payload out hpayload hlt)
  | accepted hpayload' hlt' hstep' hreact => exact ⟨_, _, _, _, hpayload', hlt', hstep', hreact, rfl⟩

/-- what a rejected entry leaves behind -/
structure Rejected (s : Shareholder F G) (e : Envelope) (cause : Violation) (r : Response F G) : Prop where
  alerts : r.shareholder.alerts = s.alerts ++ [⟨s.index, e.sender, cause.condition⟩]
  outgoing : r.outgoing = []
  notices : r.notices = [.violated cause]
  rng : r.shareholder.rng = s.rng
  /-- an entry that is not the first contribution of its sender leaves the alert only -/
  unchanged : (∀ c, ¬ s.Introduces e c) → r.shareholder = { s with alerts := r.shareholder.alerts }
  /-- a first contribution leaves its dealer marked -/
  marked : ∀ c, s.Introduces e c → r.shareholder = { s.mark e.sender c with alerts := r.shareholder.alerts }

omit [Add F] [SMul F F] [Sampled F] in
theorem Valid.rejected_of_refusal (h : s.Valid) (hcause : s.view.refusal? s.params e = some cause) :
    Rejected s e cause (s.refused e.sender cause) where
  alerts := rfl
  outgoing := rfl
  notices := rfl
  rng := rfl
  unchanged _ := rfl
  marked c hc := by
    obtain ⟨hpayload, hlt, hseen⟩ := hc
    rw [h.view.refusal?_of_unseen h.admissible hpayload hlt hseen] at hcause
    cases hcause

/-- **Every delivery is rejected for its cause, or raises no alert.** -/
theorem Delivered.rejected_or (h : Delivered s e r) (hv : s.Valid) (hr : s.deliver e = some r) :
    (∃ cause, s.violation? e = some cause ∧ Rejected s e cause r) ∨
      s.violation? e = none ∧ r.shareholder.alerts = s.alerts := by
  unfold violation?
  rcases hrefusal : s.view.refusal? s.params e with _ | cause
  · obtain ⟨payload, view, notices, r', hpayload, hlt, hstep, hreact, rfl⟩ := h.of_taken hv hrefusal
    simp only [hpayload]
    by_cases hkind : payload.opcode = .contribution
    · obtain ⟨c, rfl⟩ := Payload.exists_contribution hkind
      obtain ⟨htake, rfl⟩ := View.step_contribution_eq_ok.1 hstep
      obtain ⟨hseen, rfl⟩ := (View.takeContribution_eq_ok hv.view.commitments_eq_seen).1 htake
      rcases hjudge : s.judge c with cause | pair
      · refine Or.inl ⟨cause, by simp only [flaw?, hjudge], ?_⟩
        obtain rfl := onContribution_rejected hreact hjudge
        refine ⟨rfl, ite_self _, rfl, rfl, fun hnot => absurd ⟨hpayload, hlt, hseen⟩ (hnot c), fun c' hc' => ?_⟩
        obtain rfl := Payload.contribution.inj (Except.ok.inj (hpayload.symm.trans hc'.1))
        rw [mark, ← hv.view.keepCommitments_eq hseen]
        rfl
      · have halerts := onContribution_alerts hreact hjudge
        exact Or.inr ⟨by simp only [flaw?, hjudge], halerts⟩
    · have halerts := react_alerts hreact hkind
      refine Or.inr ⟨?_, halerts⟩
      cases payload with
      | contribution c => exact absurd rfl hkind
      | verification _ | rebuttal _ | proof _ | bulkProof _ => rfl
  · obtain rfl := Option.some.inj (hr.symm.trans (hv.deliver_of_refusal hrefusal))
    exact Or.inl ⟨cause, rfl, hv.rejected_of_refusal hrefusal⟩

end Shareholder

/-! ## histories -/

variable [Suite F G] [NatCast F] [Zero F] [One F] [Add F] [Sub F] [Mul F] [Inv F] [SMul F F] [Zero G] [Add G]
  [SMul F G] [Wire F] [Wire G] [Sampled F] [DecidableEq F] [DecidableEq G]
  {s₀ s : Shareholder F G} {log : List Envelope} {out : List (Payload F G)}

/-- **A rejected entry leaves everything but the alerts as it was.** In every state that a shareholder can reach, an entry
of any content raises one alert if there is a violation in it, of the shareholder against the sender on the condition of the
violation, and none otherwise. If it raises one, nothing is sent, no randomness is drawn, and the state stays as it was, but
for the first contribution of a dealer: this one marks the dealer as seen and as a complaint, and its commitments are kept
exactly if they are `k` proper points, whatever is wrong with the share. -/
theorem rejected_unchanged (h₀ : s₀.Fresh) (h : History s₀ log s out) (e : Envelope) :
    ∃ r, s.deliver e = some r ∧
      r.shareholder.alerts =
        s.alerts ++ (s.violation? e).toList.map (fun cause => ⟨s₀.index, e.sender, cause.condition⟩) ∧
      ∀ cause, s.violation? e = some cause → r.outgoing = [] ∧ r.shareholder.rng = s.rng ∧
        ((∀ c, ¬ s.Introduces e c) → r.shareholder = { s with alerts := r.shareholder.alerts }) ∧
        ∀ c, s.Introduces e c → r.shareholder = { s.mark e.sender c with alerts := r.shareholder.alerts } ∧
          (r.shareholder.view.commitments[e.sender.toNat]? = some (some c.commitments) ↔
            View.Proper s₀.params.k c.commitments) := by
  have hvalid := h.valid h₀.valid
  obtain ⟨r, hr, hd⟩ := hvalid.delivered e
  refine ⟨r, hr, ?_⟩
  rw [← h.index_eq h₀.valid, ← h.params_eq h₀.valid]
  rcases hd.rejected_or hvalid hr with ⟨cause, hcause, hrejected⟩ | ⟨hnone, halerts⟩
  · rw [hcause]
    refine ⟨hrejected.alerts, fun cause' _ => ⟨hrejected.outgoing, hrejected.rng, hrejected.unchanged, fun c hc => ?_⟩⟩
    have hmarked := hrejected.marked c hc
    refine ⟨hmarked, ?_⟩
    rw [hmarked]
    exact hc.kept_iff hvalid
  · rw [hnone, halerts]
    refine ⟨(List.append_nil _).symm, ?_⟩
    intro cause hcause
    cases hcause

/-- dealer 2 of five commits properly and seals a share to nobody -/
def unsealedByTwo : Payload (ZMod 11) (ZMod 11) := .contribution ⟨⟨[1, 1]⟩, []⟩

theorem payload_unsealedByTwo : (unsealedByTwo.toEnvelope 2).payload = .ok unsealedByTwo := by
  have hfits : unsealedByTwo.Fits := ⟨by decide, by decide, fun share hshare => absurd hshare List.not_mem_nil⟩
  exact Payload.payload_toEnvelope hfits 2

/-- shareholder 1 of five raises an alert against dealer 2, keeps its commitments, and complains about it -/
theorem rejected_unchanged_five : ∃ r, (Cast.five.start 1).deliver (unsealedByTwo.toEnvelope 2) = some r ∧
    r.shareholder.alerts = [⟨1, 2, .invalidCiphertext⟩] ∧ r.outgoing = [] ∧
      r.shareholder.ownStatuses = [none, none, some .complaint, none, none] ∧
        r.shareholder.view.commitments = [none, none, some ⟨[1, 1]⟩, none, none] := by
  have hfresh := Cast.fresh_five
  have hlt : (unsealedByTwo.toEnvelope 2).sender.toNat < (Cast.five.start 1).params.n := by
    rw [Cast.params_start_five]
    decide
  have hseen : (Cast.five.start 1).view.seen[(unsealedByTwo.toEnvelope 2).sender.toNat]? = some false := by
    rw [hfresh.view, Cast.params_start_five]
    rfl
  have hintroduces : (Cast.five.start 1).Introduces (unsealedByTwo.toEnvelope 2) ⟨⟨[1, 1]⟩, []⟩ :=
    ⟨payload_unsealedByTwo, hlt, hseen⟩
  have hviolation : (Cast.five.start 1).violation? (unsealedByTwo.toEnvelope 2) = some .missingShare := by
    rw [Shareholder.violation?, hfresh.valid.view.refusal?_of_unseen hfresh.valid.admissible payload_unsealedByTwo hlt hseen]
    simp only [payload_unsealedByTwo]
    rfl
  obtain ⟨r, hr, halerts, hrejected⟩ := rejected_unchanged hfresh .start (unsealedByTwo.toEnvelope 2)
  obtain ⟨hout, -, -, hmarked⟩ := hrejected _ hviolation
  obtain ⟨hstate, -⟩ := hmarked _ hintroduces
  refine ⟨r, hr, ?_, hout, ?_, ?_⟩
  · rw [halerts, hviolation, hfresh.alerts]
    rfl
  · rw [hstate]
    change (Cast.five.start 1).ownStatuses.set 2 _ = _
    rw [hfresh.ownStatuses, Cast.params_start_five]
    rfl
  · rw [hstate]
    change (Cast.five.start 1).view.commitments.set 2 _ = _
    rw [hfresh.view, Cast.params_start_five]
    rfl

end DistributedKey
