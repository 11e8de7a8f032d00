/-
How much a shareholder broadcasts, however long it runs and whatever it is sent.

For each kind of message there is something that a shareholder does only once: it deals, it announces its vector, it takes
in the first vector of another, QUAL is frozen, R is frozen. What it has not done yet is its allowance of that kind.

- `sent`: the messages of a kind, counted. `absent`: the shareholders whose vectors are not there yet.
- `allowance`: how many messages of a kind may still come.
- `react_nodup`: an answer has no two messages of one kind.
- `Delivered.allowance_le`, `Delivered.allowance_lt`: a delivery raises no allowance, and lowers those of the kinds it is
  answered by.
- `Delivered.spends`, `contribute_spends`, `History.spends`: so what is handed out is paid for by the allowance, in one
  step and along a history.
- `Frugal`: all that a history may have handed out, and `History.frugal`: it has handed out no more.
-/
import DistributedKey.Proofs.Announcement
import DistributedKey.Proofs.Complaints

namespace DistributedKey

open Checked

variable {F G : Type}

/-! ## counting messages -/

/-- the number of messages of a kind -/
def sent (kind : Opcode) (out : List (Payload F G)) : Nat := (out.map Payload.opcode).count kind

section

variable {kind : Opcode} {out later : List (Payload F G)}

@[simp] theorem sent_nil : sent kind ([] : List (Payload F G)) = 0 := rfl

@[simp] theorem sent_append : sent kind (out ++ later) = sent kind out + sent kind later := by
  simp [sent]

theorem sent_eq_zero (h : ∀ y ∈ out, y.opcode ≠ kind) : sent kind out = 0 := by
  simpa [sent, List.count_eq_zero] using h

theorem exists_of_sent_pos (h : 0 < sent kind out) : ∃ y ∈ out, y.opcode = kind := by
  simpa [sent, List.count_pos_iff] using h

theorem sent_le_one (h : (out.map Payload.opcode).Nodup) : sent kind out ≤ 1 := List.nodup_iff_count_le_one.1 h kind

/-- every message is of one of the five kinds -/
theorem length_eq_sent (out : List (Payload F G)) : out.length = sent .contribution out + sent .verification out +
    sent .rebuttal out + sent .proof out + sent .bulkProof out := by
  induction out with
  | nil => rfl
  | cons y out ih =>
    rw [List.length_cons, ih]
    cases y <;> simp [sent, Payload.opcode] <;> omega

end

/-! ## vectors that are not there yet -/

namespace View

variable {p : Params} {v : View G} {e : Envelope} {d j : Index} {log : List Envelope}

/-- the number of shareholders that have not announced a vector -/
def absent (v : View G) : Nat := v.verdicts.rows.countP Option.isNone

/-- an absent row that is stored is absent no more -/
theorem countP_setRow {m : StatusMatrix} (row : List (Option Status)) (hj : j.toNat < m.rows.length)
    (habsent : m.row? j.toNat = none) :
    (m.rows.set j.toNat (some row)).countP Option.isNone + 1 = m.rows.countP Option.isNone := by
  have hrow : m.rows[j.toNat] = none := by simpa [StatusMatrix.row?, hj] using habsent
  have hpos : 0 < m.rows.countP Option.isNone :=
    List.countP_pos_iff.2 ⟨_, List.getElem_mem hj, by rw [hrow]; rfl⟩
  rw [List.countP_set hj, hrow]
  simp only [Option.isNone_none, Option.isNone_some, ↓reduceIte, Bool.false_eq_true]
  omega

variable [Suite F G] [NatCast F] [Zero F] [One F] [Sub F] [Mul F] [Inv F] [Zero G] [Add G] [SMul F G]
  [Wire F] [Wire G] [DecidableEq F] [DecidableEq G]

/-- **Rows are not taken away.** -/
theorem absent_after_le (h : Valid p v) (e : Envelope) : (v.after p e).absent ≤ v.absent := by
  unfold absent
  rcases verdicts_after h e with hsame | ⟨statuses, notices, -, hlt, -, habsent, hrows⟩ |
    ⟨b, notices, -, -, -, hcell, hset⟩
  · rw [hsame]
  · rw [hrows, ← countP_setRow statuses (h.rows_length.symm ▸ hlt) habsent]
    exact Nat.le_succ _
  · obtain ⟨cells, hrow, -⟩ := StatusMatrix.cell_eq_some.1 hcell
    have hj := (List.getElem?_eq_some_iff.1 (StatusMatrix.row?_eq_some.1 hrow))
    rw [hset, StatusMatrix.set_eq_setRow hrow, List.countP_set hj.1, hj.2]
    simp

/-- who accuses a dealer was absent before and is not any more -/
theorem absent_after_lt (h : Valid p v) (haccuser : v.accuser? p d e = some j) : (v.after p e).absent < v.absent := by
  obtain ⟨hnone, hcomplaint⟩ := cells_of_accuser? haccuser
  obtain ⟨cells, hrow, -⟩ := StatusMatrix.cell_eq_some.1 hcomplaint
  unfold absent
  rcases verdicts_after h e with hsame | ⟨statuses, notices, -, hlt, -, habsent, hrows⟩ |
    ⟨b, notices, -, -, -, -, hset⟩
  · rw [hsame, hnone] at hrow
    cases hrow
  · rw [hrows, ← countP_setRow statuses (h.rows_length.symm ▸ hlt) habsent]
    exact Nat.lt_succ_self _
  · rw [hset, StatusMatrix.row?_set, hnone] at hrow
    simp at hrow

/-- nobody accuses a dealer twice -/
theorem nodup_accusers (p : Params) (d : Index) (log : List Envelope) :
    ((initial p.n : View G).accusers p d log).Nodup := by
  induction log using List.reverseRecOn with
  | nil => exact List.nodup_nil
  | append_singleton log e ih =>
    rw [accusers_concat]
    have hone : (((initial p.n : View G).along p log).accuser? p d e).toList.Nodup := by
      cases ((initial p.n : View G).along p log).accuser? p d e <;> simp
    refine List.nodup_append.2 ⟨ih, hone, fun i hi j hj hij => ?_⟩
    subst hij
    -- whoever accused before has a row, and whoever accuses now had none
    obtain ⟨before, e', hpre, haccused⟩ := mem_accusers.1 hi
    obtain ⟨cells, hrow, -⟩ := StatusMatrix.cell_eq_some.1 (cells_of_accuser? haccused).2
    obtain ⟨hnone, -⟩ := cells_of_accuser? (Option.mem_toList.1 hj)
    have hsettled := (settles_ofLog (G := G) p hpre).announced i.toNat
    rw [ofLog_concat, ofLog, hrow] at hsettled
    have habsent : ((ofLog p log : View G).verdicts.row? i.toNat).isSome := hsettled rfl
    rw [ofLog, hnone] at habsent
    cases habsent

end View

/-! ## allowances -/

namespace Shareholder

variable {s s' : Shareholder F G} {before : View G} {e : Envelope} {r : Response F G} {out : List (Payload F G)}
  {y payload : Payload F G} {d : Index} {kind : Opcode}

/-- one until something is done -/
def once (done : Bool) : Nat := if done then 0 else 1

theorem once_le {a b : Bool} (h : a = true → b = true) : once b ≤ once a := by
  cases a <;> cases b <;> simp [once] at h ⊢

theorem once_lt {a b : Bool} (ha : a = false) (hb : b = true) : once b < once a := by
  simp [once, ha, hb]

/-- how many messages of a kind a shareholder may still broadcast -/
def allowance (s : Shareholder F G) : Opcode → Nat
  | .contribution => once s.contributed
  | .verification => once s.vectorSent
  | .rebuttal => s.view.absent
  | .proof => once s.view.qual.isSome
  | .bulkProof => once s.view.rSet.isSome

/-- how many messages in all -/
def budget (s : Shareholder F G) : Nat := s.allowance .contribution + s.allowance .verification +
  s.allowance .rebuttal + s.allowance .proof + s.allowance .bulkProof

/-- what is handed out in a step is paid for by the budget -/
theorem budget_of_spends (h : ∀ kind, sent kind out + s'.allowance kind ≤ s.allowance kind) :
    out.length + s'.budget ≤ s.budget := by
  have h1 := h .contribution
  have h2 := h .verification
  have h3 := h .rebuttal
  have h4 := h .proof
  have h5 := h .bulkProof
  rw [length_eq_sent, budget, budget]
  omega

section

variable [Suite F G]

/-- at no time are more messages allowed than at the start -/
theorem Valid.budget_le [Zero G] [DecidableEq G] (h : s.Valid) : s.budget ≤ s.params.n + 4 := by
  have honce : ∀ done : Bool, once done ≤ 1 := fun done => by cases done <;> simp [once]
  have habsent : s.view.absent ≤ s.params.n := h.view.rows_length ▸ List.countP_le_length
  have h1 := honce s.contributed
  have h2 := honce s.vectorSent
  have h3 := honce s.view.qual.isSome
  have h4 := honce s.view.rSet.isSome
  simp only [budget, allowance]
  omega

variable [SMul F G]

/-- at the start one message of each kind is allowed, and `n` rebuttals -/
theorem Fresh.allowance_eq (h : s.Fresh) (kind : Opcode) :
    s.allowance kind = if kind = .rebuttal then s.params.n else 1 := by
  cases kind with
  | contribution => simp [allowance, once, h.contributed]
  | verification => simp [allowance, once, h.vectorSent]
  | rebuttal => simp [allowance, h.view, View.absent, View.initial, StatusMatrix.empty, List.countP_replicate]
  | proof => simp [allowance, once, h.view, View.initial]
  | bulkProof => simp [allowance, once, h.view, View.initial]

theorem Fresh.budget_eq (h : s.Fresh) : s.budget = s.params.n + 4 := by
  simp only [budget, h.allowance_eq, reduceCtorEq, ↓reduceIte]
  omega

end

section

variable [Suite F G] [NatCast F] [Zero F] [Add F] [SMul F F] [Zero G] [Add G] [SMul F G] [Wire F] [Wire G] [Sampled F]

/-- dealing is paid for by the allowance of a contribution -/
theorem contribute_spends (s : Shareholder F G) (kind : Opcode) :
    sent kind s.contribute.1.toList + s.contribute.2.allowance kind ≤ s.allowance kind := by
  by_cases hkind : kind = .contribution
  · subst hkind
    by_cases hcontributed : s.contributed = true
    · simp [allowance, once, contribute_none (Or.inl hcontributed)]
    · have hone : sent .contribution s.contribute.1.toList ≤ 1 := by
        refine DistributedKey.sent_le_one ?_
        cases s.contribute.1 <;> simp
      simpa [allowance, once, hcontributed] using hone
  · have hnone : sent kind s.contribute.1.toList = 0 := sent_eq_zero fun y hy heq =>
      hkind (heq.symm.trans (contribute_opcode s y hy))
    rw [hnone, Nat.zero_add]
    cases kind with
    | contribution => exact absurd rfl hkind
    | verification | rebuttal | proof | bulkProof => simp [allowance]

variable [Sub F] [Mul F] [DecidableEq G]

/-- an answer has no two messages of one kind -/
theorem react_nodup (h : s.react before d payload = .ok r) : (r.outgoing.map Payload.opcode).Nodup := by
  have hqual : ∀ {s s' : Shareholder F G} {out : List (Payload F G)}, s.onQual before = .ok (s', out) →
      out = [] ∨ ∃ π, out = [.proof π] := by
    intro s s' out hok
    rcases onQual_cases hok with ⟨-, -, rfl⟩ | ⟨q, s₁, -, -, -, ⟨-, -, rfl⟩ | ⟨-, a, b, -, -, -, rfl⟩⟩
    · exact Or.inl rfl
    · exact Or.inl rfl
    · exact Or.inr ⟨_, rfl⟩
  cases payload with
  | contribution c =>
    obtain ⟨-, ⟨cause, -, rfl⟩ | ⟨pair, s₁, out, -, -, hannounce, rfl⟩⟩ := onContribution_cases h
    · exact List.nodup_nil
    · rcases announce_cases hannounce with ⟨-, -, rfl⟩ | ⟨-, -, -, rfl⟩ <;> simp
  | verification statuses =>
    obtain ⟨own, s₁, out, -, hok, rfl⟩ := onVerification_cases h
    unfold rebuttalsTo
    rcases hqual hok with rfl | ⟨π, rfl⟩ <;> split_ifs <;> simp [Payload.opcode]
  | rebuttal b =>
    obtain ⟨s₁, s₂, out, hok, -, rfl, -⟩ := onRebuttal_cases h
    rcases hqual hok with rfl | ⟨π, rfl⟩ <;> simp
  | proof π =>
    rcases onProof_cases h with ⟨-, rfl⟩ | ⟨q, proofs, rng, -, -, -, ⟨-, rfl⟩ | ⟨l, -, rfl⟩⟩ <;> simp
  | bulkProof b =>
    simp only [react, pure_eq_ok] at h
    subst h
    exact List.nodup_nil

end

/-! ## deliveries -/

variable [Suite F G] [NatCast F] [Zero F] [One F] [Add F] [Sub F] [Mul F] [Inv F] [SMul F F] [Zero G] [Add G]
  [SMul F G] [Wire F] [Wire G] [Sampled F] [DecidableEq F] [DecidableEq G]

theorem Delivered.sent_le_one (h : Delivered s e r) (kind : Opcode) : sent kind r.outgoing ≤ 1 := by
  cases h with
  | refused cause hno => exact Nat.zero_le 1
  | @accepted payload view notices r hpayload hsender hstep hreact =>
    dsimp only
    split_ifs
    · exact Nat.zero_le 1
    · exact DistributedKey.sent_le_one (react_nodup hreact)

/-- **No delivery raises an allowance.** -/
theorem Delivered.allowance_le (h : Delivered s e r) (hv : s.Valid) (kind : Opcode) :
    r.shareholder.allowance kind ≤ s.allowance kind := by
  have hsettles := h.settles hv
  cases kind with
  | contribution => exact once_le fun hdone => h.contributed.trans hdone
  | verification => exact once_le h.vectorSent
  | rebuttal =>
    rw [allowance, allowance, h.view]
    exact View.absent_after_le hv.view e
  | proof =>
    refine once_le fun hdone => ?_
    obtain ⟨q, hq⟩ := Option.isSome_iff_exists.1 hdone
    rw [hsettles.qual q hq]
    rfl
  | bulkProof =>
    refine once_le fun hdone => ?_
    obtain ⟨q, hq⟩ := Option.isSome_iff_exists.1 hdone
    rw [hsettles.rSet q hq]
    rfl

/-- **A message that is handed out lowers the allowance of its kind.** -/
theorem Delivered.allowance_lt (h : Delivered s e r) (hv : s.Valid) (hy : y ∈ r.outgoing) :
    r.shareholder.allowance y.opcode < s.allowance y.opcode := by
  cases y with
  | contribution c => exact absurd rfl (h.no_contribution _ hy)
  | verification statuses =>
    obtain ⟨-, -, hunsent, hsent⟩ := h.announced hy
    exact once_lt hunsent hsent
  | rebuttal b =>
    have hmem := mem_rebuttals.2 hy
    rw [h.rebuttals] at hmem
    split_ifs at hmem
    · cases hmem
    · obtain ⟨j, hj, -⟩ := List.mem_map.1 hmem
      rw [Payload.opcode, allowance, allowance, h.view]
      exact View.absent_after_lt hv.view (Option.mem_toList.1 hj)
  | proof π =>
    obtain ⟨hnone, q, hq, -⟩ := h.proves hy
    exact once_lt (Option.isSome_eq_false_iff.2 (Option.isNone_iff_eq_none.2 hnone)) (Option.isSome_iff_exists.2 ⟨q, hq⟩)
  | bulkProof b =>
    obtain ⟨hnone, hr⟩ := h.provesShares hy
    exact once_lt (Option.isSome_eq_false_iff.2 (Option.isNone_iff_eq_none.2 hnone)) hr

/-- **One delivery:** what it is answered by is paid for. -/
theorem Delivered.spends (h : Delivered s e r) (hv : s.Valid) (kind : Opcode) :
    sent kind r.outgoing + r.shareholder.allowance kind ≤ s.allowance kind := by
  have hle := h.allowance_le hv kind
  rcases Nat.eq_zero_or_pos (sent kind r.outgoing) with hnone | hsome
  · rwa [hnone, Nat.zero_add]
  · obtain ⟨y, hy, rfl⟩ := exists_of_sent_pos hsome
    have hone := h.sent_le_one y.opcode
    have hlt := h.allowance_lt hv hy
    omega

end Shareholder

/-! ## histories -/

variable [Suite F G] [NatCast F] [Zero F] [One F] [Add F] [Sub F] [Mul F] [Inv F] [SMul F F] [Zero G] [Add G]
  [SMul F G] [Wire F] [Wire G] [Sampled F] [DecidableEq F] [DecidableEq G]

namespace History

variable {s₀ s : Shareholder F G} {log : List Envelope} {out : List (Payload F G)}

/-- **All that was handed out is paid for.** -/
theorem spends (h₀ : s₀.Valid) (h : History s₀ log s out) (kind : Opcode) :
    sent kind out + s.allowance kind ≤ s₀.allowance kind := by
  induction h with
  | start => simp
  | deal h ih =>
    rename_i s out
    have hdeal := s.contribute_spends kind
    rw [sent_append]
    omega
  | read h hr ih =>
    have hvalid := h.valid h₀
    have hread := (hvalid.delivered_of_deliver hr).spends hvalid kind
    rw [sent_append]
    omega

theorem member_of_proves (h₀ : s₀.Valid) (h : History s₀ log s out) {π : Opening F G} (hout : .proof π ∈ out) :
    ∃ q, s.view.qual = some q ∧ s₀.index ∈ q := by
  obtain ⟨before, e, t, out', r, hpre, ht, hr, hproof⟩ := h.exists_delivery hout (by simp [Payload.opcode])
  obtain ⟨-, q, hq, hmem⟩ := ((ht.valid h₀).delivered_of_deliver hr).proves hproof
  rw [ht.index_eq h₀] at hmem
  exact ⟨q, ((ht.read hr).settles h₀ h hpre).qual q hq, hmem⟩

theorem frozen_of_provesShares (h₀ : s₀.Valid) (h : History s₀ log s out) {b : BulkProof F G}
    (hout : .bulkProof b ∈ out) : s.view.rSet.isSome := by
  obtain ⟨before, e, t, out', r, hpre, ht, hr, hproof⟩ := h.exists_delivery hout (by simp [Payload.opcode])
  obtain ⟨-, hfrozen⟩ := ((ht.valid h₀).delivered_of_deliver hr).provesShares hproof
  obtain ⟨q, hq⟩ := Option.isSome_iff_exists.1 hfrozen
  exact Option.isSome_iff_exists.2 ⟨q, ((ht.read hr).settles h₀ h hpre).rSet q hq⟩

/-- the rebuttals name different accusers -/
theorem nodup_rebuttals (h₀ : s₀.Fresh) (h : History s₀ log s out) : ((rebuttals out).map (·.accuser)).Nodup := by
  rw [h.rebuttals_eq h₀.valid, h₀.view]
  split_ifs
  · exact List.nodup_nil
  · rw [List.map_map]
    exact (View.nodup_accusers s₀.params s₀.index log).map fun _ _ heq => heq

/-- a rebuttal answers a stored vector -/
theorem stored_of_rebuts (h₀ : s₀.Fresh) (h : History s₀ log s out) {b : Rebuttal F} (hout : .rebuttal b ∈ out) :
    ∃ before e statuses, before ++ [e] <+: log ∧ e.sender = b.accuser ∧
      (e.payload : Except Violation (Payload F G)) = .ok (.verification statuses) ∧
        (View.ofLog s₀.params (before ++ [e]) : View G).verdicts.row? b.accuser.toNat = some statuses ∧
          statuses[s₀.index.toNat]? = some (some .complaint) := by
  obtain ⟨haccuser, -⟩ := h.mem_rebuttal h₀.valid hout
  rw [h₀.view] at haccuser
  obtain ⟨before, e, hpre, haccuser⟩ := View.mem_accusers.1 haccuser
  obtain ⟨hsender, hlt, statuses, ⟨v, notices⟩, hpayload, hmark, hstep⟩ := View.accuser?_eq_some.1 haccuser
  obtain ⟨hlen, -, -, hv⟩ := View.takeVerification_eq_ok.1 (View.step_verification_eq_ok.1 hstep).1
  refine ⟨before, e, statuses, hpre, hsender, hpayload, ?_, hmark⟩
  rw [View.ofLog_concat, View.ofLog, View.after_of_step hpayload hlt hstep, ← hv, View.tryQual_verdicts, ← hsender,
    StatusMatrix.row?_setRow hlen, if_pos rfl]

end History

/-- all that a shareholder may have broadcast by the time it has read a log -/
structure Frugal (s₀ s : Shareholder F G) (log : List Envelope) (out : List (Payload F G)) : Prop where
  contribution : sent .contribution out ≤ 1
  verification : sent .verification out ≤ 1
  /-- a vector has an entry for each dealer, and enough successes -/
  vector : ∀ statuses, .verification statuses ∈ out →
    statuses.length = s₀.params.n ∧ s₀.params.n - s₀.params.f ≤ statuses.count (some .success)
  proof : sent .proof out ≤ 1
  /-- only a member of QUAL proves its constant term -/
  member : ∀ π, .proof π ∈ out → ∃ q, s.view.qual = some q ∧ s₀.index ∈ q
  bulkProof : sent .bulkProof out ≤ 1
  /-- shares are proved only once R is frozen -/
  frozen : ∀ b, .bulkProof b ∈ out → s.view.rSet.isSome
  /-- an accuser is answered once -/
  accusers : ((rebuttals out).map (·.accuser)).Nodup
  /-- by the pair that it was dealt -/
  pair : ∀ b, .rebuttal b ∈ out →
    b.share = ⟨b.accuser, s₀.f1.eval (xCoordinate b.accuser : F), s₀.f2.eval (xCoordinate b.accuser : F)⟩
  /-- because its vector, as it was stored, marks the shareholder as a complaint -/
  accused : ∀ b, .rebuttal b ∈ out → ∃ before e statuses, before ++ [e] <+: log ∧ e.sender = b.accuser ∧
    (e.payload : Except Violation (Payload F G)) = .ok (.verification statuses) ∧
      (View.ofLog s₀.params (before ++ [e]) : View G).verdicts.row? b.accuser.toNat = some statuses ∧
        statuses[s₀.index.toNat]? = some (some .complaint)
  length : out.length ≤ s₀.params.n + 4

/-- **A shareholder broadcasts little**, whatever it reads and however often it deals. -/
theorem History.frugal {s₀ s : Shareholder F G} {log : List Envelope} {out : List (Payload F G)} (h₀ : s₀.Fresh)
    (h : History s₀ log s out) : Frugal s₀ s log out := by
  have hone : ∀ kind, kind ≠ .rebuttal → sent kind out ≤ 1 := by
    intro kind hkind
    have hspent := h.spends h₀.valid kind
    rw [h₀.allowance_eq, if_neg hkind] at hspent
    omega
  constructor
  case contribution => exact hone _ (by decide)
  case verification => exact hone _ (by decide)
  case vector =>
    intro statuses hout
    obtain ⟨hlen, hcount, -⟩ := h.announced h₀ hout
    exact ⟨hlen, hcount⟩
  case proof => exact hone _ (by decide)
  case member => exact fun π hout => h.member_of_proves h₀.valid hout
  case bulkProof => exact hone _ (by decide)
  case frozen => exact fun b hout => h.frozen_of_provesShares h₀.valid hout
  case accusers => exact h.nodup_rebuttals h₀
  case pair =>
    intro b hout
    obtain ⟨-, hb⟩ := h.mem_rebuttal h₀.valid hout
    rw [hb]
    rfl
  case accused => exact fun b hout => h.stored_of_rebuts h₀ hout
  case length =>
    have hbudget : out.length + s.budget ≤ s₀.budget := Shareholder.budget_of_spends (h.spends h₀.valid)
    rw [h₀.budget_eq] at hbudget
    omega

end DistributedKey
