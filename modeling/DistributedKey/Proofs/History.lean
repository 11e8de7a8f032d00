/-
Histories: what one shareholder may have done and sent by the time it has read a log.

- `Delivered`: an entry is refused, which leaves an alert and nothing else, or the view takes it in and the shareholder
  reacts. `Valid.delivered`: each entry of any content is one of the two, so no handler ever fails.
- `Delivered.tables_cases`: the two kinds of entry that change the judgments and the shares, and how.
- `History s₀ log s out`: from `s₀`, by reading the entries of `log` in order and dealing at any moments, a shareholder
  comes to `s` and has handed out the payloads `out`.
- `History.view_eq_ofLog`: the view is a function of the log, whatever else the shareholder is.
- `History.invariant`: the induction over a history, made once.
- `History.exists_of_log`: every log can be read to its end.
-/
import DistributedKey.Proofs.Shareholder.Valid

namespace DistributedKey

open Checked

variable {F G : Type}
variable [Suite F G] [NatCast F] [Zero F] [One F] [Add F] [Sub F] [Mul F] [Inv F] [SMul F F] [Zero G] [Add G]
  [SMul F G] [Wire F] [Wire G] [Sampled F] [DecidableEq F] [DecidableEq G]

namespace Shareholder

/-- how an entry is taken in -/
inductive Delivered (s : Shareholder F G) (e : Envelope) : Response F G → Prop
  /-- an alert is raised, because the view takes nothing in -/
  | refused (cause : Violation)
      (hno : ∀ (payload : Payload F G) (out : View G × List Notice), e.payload = .ok payload →
        e.sender.toNat < s.params.n → s.view.step s.params e.sender payload ≠ .ok out) :
      Delivered s e (s.refused e.sender cause)
  | accepted {payload : Payload F G} {view : View G} {notices : List Notice} {r : Response F G}
      (hpayload : e.payload = .ok payload) (hsender : e.sender.toNat < s.params.n)
      (hstep : s.view.step s.params e.sender payload = .ok (view, notices))
      (hreact : react { s with view } s.view e.sender payload = .ok r) :
      Delivered s e ⟨r.shareholder, if s.behavior = .silent then [] else r.outgoing, notices ++ r.notices⟩

variable {s : Shareholder F G} {e : Envelope} {r : Response F G}

/-- what the view refuses is not handled -/
theorem handle_of_step_error {payload : Payload F G} {fault : Fault} (hpayload : e.payload = .ok payload)
    (hsender : e.sender.toNat < s.params.n) (hstep : s.view.step s.params e.sender payload = .error fault) :
    s.handle e = .error fault := by
  have hcontains : s.group.contains e.sender = true := decide_eq_true hsender
  simp [handle, hpayload, hcontains, require, hstep, bind, Except.bind]

theorem deliver_of_refused {cause : Violation} (h : s.handle e = .error (.refused cause)) :
    s.deliver e = some (s.refused e.sender cause) := by
  simp [deliver, h]

/-- **Every entry, whatever its content, is delivered to a valid shareholder.** -/
theorem Valid.delivered (h : s.Valid) (e : Envelope) : ∃ r, s.deliver e = some r ∧ Delivered s e r := by
  have hrefused : ∀ cause, s.handle e = .error (.refused cause) →
      (∀ (payload : Payload F G) (out : View G × List Notice), e.payload = .ok payload →
        e.sender.toNat < s.params.n → s.view.step s.params e.sender payload ≠ .ok out) →
      ∃ r, s.deliver e = some r ∧ Delivered s e r := fun cause hhandle hno =>
    ⟨s.refused e.sender cause, deliver_of_refused hhandle, .refused cause hno⟩
  rcases he : (e.payload : Except Violation (Payload F G)) with cause | payload
  · refine hrefused cause (by simp [handle, he, refuse]) fun payload out hpayload => ?_
    rw [he] at hpayload
    cases hpayload
  by_cases hj : e.sender.toNat < s.params.n
  · have hcontains : s.group.contains e.sender = true := decide_eq_true hj
    rcases hstep : s.view.step s.params e.sender payload with (cause | -) | ⟨view, notices⟩
    · refine hrefused cause (handle_of_step_error he hj hstep) fun payload' out hpayload _ hok => ?_
      rw [he] at hpayload
      obtain rfl := Except.ok.inj hpayload
      rw [hstep] at hok
      cases hok
    · exact absurd hstep (h.view.step_ne_crash h.admissible hj payload)
    · have hvalid := h.withView (View.valid_step h.view hstep)
      have hlen : ∀ statuses, payload = .verification statuses → statuses.length = s.params.n := by
        rintro statuses rfl
        exact (View.takeVerification_eq_ok.1 (View.step_verification_eq_ok.1 hstep).1).2.2.1
      obtain ⟨r, hreact⟩ := hvalid.answers_react hj s.view hlen
      refine ⟨_, ?_, .accepted he hj hstep hreact⟩
      simp [deliver, handle, he, hcontains, require, hstep, hreact, bind, Except.bind, pure, Except.pure]
  · have hcontains : s.group.contains e.sender = false := decide_eq_false hj
    refine hrefused (.unknownSender e.sender) ?_ fun payload out _ hj' => absurd hj' hj
    simp [handle, he, hcontains, require, refuse, bind, Except.bind]

theorem Valid.delivered_of_deliver (h : s.Valid) (hr : s.deliver e = some r) : Delivered s e r := by
  obtain ⟨r', hr', hd⟩ := h.delivered e
  obtain rfl : r' = r := Option.some.inj (hr'.symm.trans hr)
  exact hd

/-- what the view takes in makes the shareholder react -/
theorem Delivered.reacts (h : Delivered s e r) {payload : Payload F G} {view : View G} {notices : List Notice}
    (hpayload : e.payload = .ok payload) (hsender : e.sender.toNat < s.params.n)
    (hstep : s.view.step s.params e.sender payload = .ok (view, notices)) :
    ∃ r', react { s with view } s.view e.sender payload = .ok r' ∧ r.shareholder = r'.shareholder ∧
      r.outgoing = if s.behavior = .silent then [] else r'.outgoing := by
  cases h with
  | refused cause hno => exact absurd hstep (hno payload _ hpayload hsender)
  | accepted hpayload' _ hstep' hreact =>
    obtain rfl := Except.ok.inj (hpayload'.symm.trans hpayload)
    obtain ⟨rfl, rfl⟩ := Prod.mk.inj (Except.ok.inj (hstep'.symm.trans hstep))
    exact ⟨_, hreact, rfl, rfl⟩

/-- whatever goes out is part of a reaction -/
theorem Delivered.of_mem_outgoing (h : Delivered s e r) {y : Payload F G} (hy : y ∈ r.outgoing) :
    ∃ (payload : Payload F G) (view : View G) (r' : Response F G), e.payload = .ok payload ∧
      react { s with view } s.view e.sender payload = .ok r' ∧ r.shareholder = r'.shareholder ∧ y ∈ r'.outgoing := by
  cases h with
  | refused cause hno => exact absurd hy List.not_mem_nil
  | @accepted payload view notices r hpayload hsender hstep hreact =>
    dsimp only at hy
    split_ifs at hy
    · exact absurd hy List.not_mem_nil
    · exact ⟨payload, view, r, hpayload, hreact, rfl, hy⟩

/-- an answer is of a kind that the message asks for -/
theorem Delivered.opcode (h : Delivered s e r) : ∀ y ∈ r.outgoing, ∃ payload : Payload F G,
    e.payload = .ok payload ∧ y.opcode ∈ answers payload.opcode := by
  intro y hy
  obtain ⟨payload, view, r', hpayload, hreact, -, hy⟩ := h.of_mem_outgoing hy
  exact ⟨payload, hpayload, react_opcode hreact y hy⟩

/-- so nothing is answered by a contribution -/
theorem Delivered.no_contribution (h : Delivered s e r) : ∀ y ∈ r.outgoing, y.opcode ≠ .contribution := by
  intro y hy hkind
  obtain ⟨payload, -, hanswers⟩ := h.opcode y hy
  rw [hkind] at hanswers
  cases payload <;> simp [answers, Payload.opcode] at hanswers

/-- **What a delivery does to the own tables.** They change on a contribution, which is judged, and on a rebuttal of the
own complaint, whose share is taken over. -/
theorem Delivered.tables_cases (h : Delivered s e r) :
    (r.shareholder.ownStatuses = s.ownStatuses ∧ r.shareholder.shares = s.shares ∧
        r.shareholder.vectorSent = s.vectorSent) ∨
    (∃ (c : Contribution G) (view : View G), (e.payload : Except Violation (Payload F G)) = .ok (.contribution c) ∧
      s.view.takeContribution s.params e.sender c = .ok view ∧
        ((∃ cause, judge { s with view } c = .error cause ∧
            r.shareholder.ownStatuses = s.ownStatuses.set e.sender.toNat (some .complaint) ∧
              r.shareholder.shares = s.shares ∧ r.shareholder.vectorSent = s.vectorSent) ∨
          ∃ pair, judge { s with view } c = .ok pair ∧
            r.shareholder.ownStatuses = s.ownStatuses.set e.sender.toNat (some .success) ∧
              r.shareholder.shares = s.shares.set e.sender.toNat (some pair) ∧
                (s.vectorSent = true → r.shareholder.vectorSent = true))) ∨
    ∃ (b : Rebuttal F) (view : View G), (e.payload : Except Violation (Payload F G)) = .ok (.rebuttal b) ∧
      s.view.takeRebuttal s.params e.sender b = .ok view ∧ b.accuser = s.index ∧
        r.shareholder.ownStatuses = s.ownStatuses.set e.sender.toNat (some .success) ∧
          r.shareholder.shares = s.shares.set e.sender.toNat (some b.share) ∧
            r.shareholder.vectorSent = s.vectorSent := by
  cases h with
  | refused cause hno => exact Or.inl ⟨rfl, rfl, rfl⟩
  | @accepted payload view notices r hpayload hsender hstep hreact =>
    dsimp only
    cases payload with
    | contribution c =>
      refine Or.inr (Or.inl ⟨c, view, hpayload, (View.step_contribution_eq_ok.1 hstep).1, ?_⟩)
      obtain ⟨-, ⟨cause, hjudge, rfl⟩ | ⟨pair, s₁, out, hjudge, -, hannounce, rfl⟩⟩ := onContribution_cases hreact
      · exact Or.inl ⟨cause, hjudge, rfl, rfl, rfl⟩
      · refine Or.inr ⟨pair, hjudge, ?_⟩
        rcases announce_cases hannounce with ⟨-, rfl, -⟩ | ⟨-, -, rfl, -⟩
        · exact ⟨rfl, rfl, id⟩
        · exact ⟨rfl, rfl, fun _ => rfl⟩
    | verification statuses =>
      rw [onVerification_frame hreact]
      exact Or.inl ⟨rfl, rfl, rfl⟩
    | rebuttal b =>
      rw [onRebuttal_frame hreact]
      unfold Shareholder.adopt
      split_ifs with hown
      · exact Or.inr (Or.inr ⟨b, view, hpayload, (View.step_rebuttal_eq_ok.1 hstep).1, hown, rfl, rfl, rfl⟩)
      · exact Or.inl ⟨rfl, rfl, rfl⟩
    | proof π =>
      rw [onProof_frame hreact]
      exact Or.inl ⟨rfl, rfl, rfl⟩
    | bulkProof b =>
      simp only [react, pure_eq_ok] at hreact
      rw [← hreact]
      exact Or.inl ⟨rfl, rfl, rfl⟩

/-- a bulk proof, taken in or not, changes the view only, and is not answered -/
theorem Delivered.of_bulkProof (h : Delivered s e r) {b : BulkProof F G}
    (hpayload : (e.payload : Except Violation (Payload F G)) = .ok (.bulkProof b)) : r.outgoing = [] ∧
      r.shareholder = { s with view := r.shareholder.view, alerts := r.shareholder.alerts } := by
  cases h with
  | refused cause hno => exact ⟨rfl, rfl⟩
  | accepted hpayload' _ _ hreact =>
    obtain rfl := Except.ok.inj (hpayload'.symm.trans hpayload)
    simp only [react, pure_eq_ok] at hreact
    subst hreact
    exact ⟨ite_self _, rfl⟩

theorem Delivered.view (h : Delivered s e r) : r.shareholder.view = s.view.after s.params e := by
  cases h with
  | refused cause hno =>
    rcases View.after_cases s.params s.view e with hview | ⟨payload, notices, hpayload, hsender, hstep⟩
    · exact hview.symm
    · exact absurd hstep (hno payload _ hpayload hsender)
  | accepted hpayload hsender hstep hreact => rw [View.after_of_step hpayload hsender hstep, react_view hreact]

theorem Delivered.identity (h : Delivered s e r) : r.shareholder.identity = s.identity := by
  cases h with
  | refused cause hno => rfl
  | accepted hpayload hsender hstep hreact =>
    have hidentity := react_identity hreact
    exact hidentity

theorem Delivered.contributed (h : Delivered s e r) : r.shareholder.contributed = s.contributed := by
  cases h with
  | refused cause hno => rfl
  | accepted hpayload hsender hstep hreact =>
    have hcontributed := react_contributed hreact
    exact hcontributed

/-- nothing that the view has settled is taken back -/
theorem Delivered.settles (h : Delivered s e r) (hs : s.Valid) : View.Settles s.view r.shareholder.view := by
  rw [h.view]
  exact View.settles_after hs.view e

theorem Delivered.valid (h : Delivered s e r) (hs : s.Valid) : r.shareholder.Valid := by
  cases h with
  | refused cause hno => exact { hs with }
  | accepted hpayload hsender hstep hreact =>
    have hvalid := (hs.withView (View.valid_step hs.view hstep)).react hreact
    exact hvalid

end Shareholder

/-! ## histories -/

/-- what a shareholder that started as `s₀` may be, and have handed out, after it has read a log -/
inductive History (s₀ : Shareholder F G) : List Envelope → Shareholder F G → List (Payload F G) → Prop
  | start : History s₀ [] s₀ []
  | deal {log : List Envelope} {s : Shareholder F G} {out : List (Payload F G)} (h : History s₀ log s out) :
      History s₀ log s.contribute.2 (out ++ s.contribute.1.toList)
  | read {log : List Envelope} {s : Shareholder F G} {out : List (Payload F G)} {e : Envelope}
      {r : Shareholder.Response F G} (h : History s₀ log s out) (hr : s.deliver e = some r) :
      History s₀ (log ++ [e]) r.shareholder (out ++ r.outgoing)

namespace History

variable {s₀ s : Shareholder F G} {log later : List Envelope} {out : List (Payload F G)}

theorem valid (h₀ : s₀.Valid) (h : History s₀ log s out) : s.Valid := by
  induction h with
  | start => exact h₀
  | deal _ ih => exact ih.contribute
  | read _ hr ih => exact (ih.delivered_of_deliver hr).valid ih

/-- what holds at the start and is kept by dealing and by every delivery holds after every history -/
theorem invariant {P : Shareholder F G → Prop} (h₀ : s₀.Valid) (hstart : P s₀)
    (hdeal : ∀ s, s.Valid → P s → P s.contribute.2)
    (hread : ∀ s e r, s.Valid → P s → Shareholder.Delivered s e r → P r.shareholder) (h : History s₀ log s out) :
    P s := by
  induction h with
  | start => exact hstart
  | deal h ih => exact hdeal _ (h.valid h₀) ih
  | read h hr ih => exact hread _ _ _ (h.valid h₀) ih ((h.valid h₀).delivered_of_deliver hr)

theorem identity (h₀ : s₀.Valid) (h : History s₀ log s out) : s.identity = s₀.identity :=
  h.invariant (P := fun s => s.identity = s₀.identity) h₀ rfl
    (fun s _ hs => (Shareholder.contribute_identity s).trans hs) fun _ _ _ _ hs hd => hd.identity.trans hs

theorem index_eq (h₀ : s₀.Valid) (h : History s₀ log s out) : s.index = s₀.index :=
  Shareholder.index_eq_of_identity (h.identity h₀)

theorem params_eq (h₀ : s₀.Valid) (h : History s₀ log s out) : s.params = s₀.params :=
  Shareholder.params_eq_of_identity (h.identity h₀)

/-- the view is what the log makes of the first view -/
theorem view_eq (h₀ : s₀.Valid) (h : History s₀ log s out) : s.view = s₀.view.along s₀.params log := by
  induction h with
  | start => rfl
  | deal _ ih => rw [Shareholder.contribute_view, ih]
  | read h hr ih =>
    rw [((h.valid h₀).delivered_of_deliver hr).view, h.params_eq h₀, ih, View.along_concat]

theorem view_eq_ofLog (h₀ : s₀.Fresh) (h : History s₀ log s out) : s.view = View.ofLog s₀.params log := by
  rw [h.view_eq h₀.valid, h₀.view, View.ofLog]

/-- every further log can be read to its end, and what each delivery keeps is kept until then -/
theorem extend {P : Shareholder F G → Prop} (h₀ : s₀.Valid) (h : History s₀ log s out) (hs : P s)
    (hread : ∀ s e r, s.Valid → P s → Shareholder.Delivered s e r → P r.shareholder) (later : List Envelope) :
    ∃ t out', History s₀ (log ++ later) t out' ∧ P t := by
  induction later generalizing log s out with
  | nil => exact ⟨s, out, by rwa [List.append_nil], hs⟩
  | cons e later ih =>
    obtain ⟨r, hr, hd⟩ := (h.valid h₀).delivered e
    obtain ⟨t, out', ht, hP⟩ := ih (h.read hr) (hread s e r (h.valid h₀) hs hd)
    exact ⟨t, out', by rwa [List.append_assoc] at ht, hP⟩

/-- and what is handed out on the way is no contribution -/
theorem read_on (h₀ : s₀.Valid) (h : History s₀ log s out) (later : List Envelope) :
    ∃ t new, History s₀ (log ++ later) t (out ++ new) ∧ t.contributed = s.contributed ∧
      ∀ y ∈ new, y.opcode ≠ .contribution := by
  induction later generalizing log s out with
  | nil => exact ⟨s, [], by rwa [List.append_nil, List.append_nil], rfl, fun y hy => absurd hy List.not_mem_nil⟩
  | cons e later ih =>
    obtain ⟨r, hr, hd⟩ := (h.valid h₀).delivered e
    obtain ⟨t, new, ht, hcontributed, hnew⟩ := ih (h.read hr)
    refine ⟨t, r.outgoing ++ new, by simpa using ht, hcontributed.trans hd.contributed, fun y hy => ?_⟩
    rcases List.mem_append.1 hy with hy | hy
    · exact hd.no_contribution y hy
    · exact hnew y hy

/-- what is handed out is a contribution, or was handed out on some entry -/
theorem exists_delivery (h : History s₀ log s out) {y : Payload F G} (hy : y ∈ out) (hkind : y.opcode ≠ .contribution) :
    ∃ before e t out' r, before ++ [e] <+: log ∧ History s₀ before t out' ∧ t.deliver e = some r ∧ y ∈ r.outgoing := by
  induction h with
  | start => exact absurd hy List.not_mem_nil
  | @deal _ s _ h ih =>
    rcases List.mem_append.1 hy with hy | hy
    · exact ih hy
    · exact absurd (s.contribute_opcode y hy) hkind
  | @read log s out e r h hr ih =>
    rcases List.mem_append.1 hy with hy | hy
    · obtain ⟨before, e', t, out', r', hpre, hrest⟩ := ih hy
      exact ⟨before, e', t, out', r', hpre.trans (List.prefix_append _ _), hrest⟩
    · exact ⟨log, e, s, out, r, List.prefix_refl _, h, hr, hy⟩

/-- what a view has settled is settled in every longer history -/
theorem settles {read : List Envelope} {t : Shareholder F G} {out' : List (Payload F G)} (h₀ : s₀.Valid)
    (hs : History s₀ read s out) (ht : History s₀ log t out') (hpre : read <+: log) : View.Settles s.view t.view := by
  obtain ⟨later, rfl⟩ := hpre
  have hvalid := (hs.valid h₀).view
  rw [hs.params_eq h₀] at hvalid
  rw [ht.view_eq h₀, View.along_append, ← hs.view_eq h₀]
  exact View.settles_along hvalid later

theorem exists_of_log (h₀ : s₀.Valid) (log : List Envelope) : ∃ t out, History s₀ log t out := by
  have hstart : History s₀ [] s₀ [] := start
  obtain ⟨t, out, ht, -⟩ := hstart.extend (P := fun _ => True) h₀ trivial (fun _ _ _ _ _ _ => trivial) log
  exact ⟨t, out, by rwa [List.nil_append] at ht⟩

end History

end DistributedKey
