/-
Which complaints a dealer answers, and how.

- `complainants`: who announces a vector that marks a dealer as a complaint.
- `accuser?`, `accusers`: who accuses a dealer by an entry, and by a log. An entry counts if the view takes it in as such a
  vector.
- `Delivered.rebuttals`: an entry is answered by a rebuttal exactly if it accuses the reader, and the rebuttal reveals
  what the reader deals to the accuser.
- `History.rebuttals_eq`: so the rebuttals that a shareholder hands out are those of its accusers in the log, in order.
  Neither its other tables nor the moment at which it deals have any part in them.
-/
import DistributedKey.Proofs.History

namespace DistributedKey

open Checked

variable {F G : Type}

/-! ## rebuttals among messages -/

def Payload.rebuttal? : Payload F G → Option (Rebuttal F)
  | .rebuttal b => some b
  | _ => none

/-- the rebuttals among messages, in order -/
def rebuttals (out : List (Payload F G)) : List (Rebuttal F) := out.filterMap Payload.rebuttal?

section

variable {out later : List (Payload F G)} {b : Rebuttal F}

@[simp] theorem rebuttals_append : rebuttals (out ++ later) = rebuttals out ++ rebuttals later :=
  List.filterMap_append

theorem mem_rebuttals : b ∈ rebuttals out ↔ .rebuttal b ∈ out := by
  rw [rebuttals, List.mem_filterMap]
  constructor
  · rintro ⟨y, hy, hb⟩
    cases y with
    | rebuttal b' =>
      obtain rfl := Option.some.inj hb
      exact hy
    | contribution _ | verification _ | proof _ | bulkProof _ => cases hb
  · intro hb
    exact ⟨_, hb, rfl⟩

theorem rebuttals_eq_nil (h : ∀ b, .rebuttal b ∉ out) : rebuttals out = [] :=
  List.eq_nil_iff_forall_not_mem.2 fun b hb => h b (mem_rebuttals.1 hb)

end

/-! ## complainants -/

section

variable [Wire F] [Wire G] {p : Params} {d j : Index} {log : List Envelope}

/-- whether an entry is a vector of a shareholder in which dealer `d` is a complaint -/
def complains (F G : Type) [Wire F] [Wire G] (p : Params) (d : Index) (e : Envelope) : Bool :=
  match (e.payload : Except Violation (Payload F G)) with
  | .ok (.verification statuses) => e.sender.toNat < p.n && statuses[d.toNat]? = some (some .complaint)
  | _ => false

/-- the shareholders that announce a vector in which dealer `d` is a complaint -/
def complainants (F G : Type) [Wire F] [Wire G] (p : Params) (d : Index) (log : List Envelope) : Finset Index :=
  ((log.filter (complains F G p d)).map (·.sender)).toFinset

theorem mem_complainants : j ∈ complainants F G p d log ↔ ∃ e ∈ log, e.sender = j ∧ e.sender.toNat < p.n ∧
    ∃ statuses, (e.payload : Except Violation (Payload F G)) = .ok (.verification statuses) ∧
      statuses[d.toNat]? = some (some .complaint) := by
  simp only [complainants, List.mem_toFinset, List.mem_map, List.mem_filter]
  constructor
  · rintro ⟨e, ⟨he, hcomplains⟩, rfl⟩
    unfold complains at hcomplains
    split at hcomplains
    · rename_i statuses hpayload
      obtain ⟨hlt, hmark⟩ := Bool.and_eq_true_iff.1 hcomplains
      exact ⟨e, he, rfl, of_decide_eq_true hlt, statuses, hpayload, of_decide_eq_true hmark⟩
    · cases hcomplains
  · rintro ⟨e, he, rfl, hlt, statuses, hpayload, hmark⟩
    exact ⟨e, ⟨he, by simp [complains, hpayload, hlt, hmark]⟩, rfl⟩

theorem lt_of_mem_complainants (hj : j ∈ complainants F G p d log) : j.toNat < p.n := by
  obtain ⟨e, -, rfl, hlt, -⟩ := mem_complainants.1 hj
  exact hlt

end

/-! ## accusers -/

namespace View

variable [Suite F G] [NatCast F] [Zero F] [One F] [Sub F] [Mul F] [Inv F] [Zero G] [Add G] [SMul F G]
  [Wire F] [Wire G] [DecidableEq F] [DecidableEq G]

/-- the sender of an entry that is taken in as a vector and marks dealer `d` as a complaint -/
def accuser? (p : Params) (d : Index) (v : View G) (e : Envelope) : Option Index :=
  match (e.payload : Except Violation (Payload F G)) with
  | .ok (.verification statuses) =>
    if e.sender.toNat < p.n ∧ statuses[d.toNat]? = some (some .complaint) then
      match v.step p e.sender (.verification statuses : Payload F G) with
      | .ok _ => some e.sender
      | .error _ => none
    else none
  | _ => none

/-- who accuses dealer `d` by the entries of a log, read from a view on -/
def accusers (p : Params) (d : Index) : View G → List Envelope → List Index
  | _, [] => []
  | v, e :: log => (v.accuser? p d e).toList ++ accusers p d (v.after p e) log

variable {p : Params} {d j : Index} {v : View G} {e : Envelope} {log later : List Envelope}

theorem accuser?_eq_some : v.accuser? p d e = some j ↔ e.sender = j ∧ e.sender.toNat < p.n ∧
    ∃ (statuses : List (Option Status)) (out : View G × List Notice),
      (e.payload : Except Violation (Payload F G)) = .ok (.verification statuses) ∧
        statuses[d.toNat]? = some (some .complaint) ∧
          v.step p e.sender (.verification statuses : Payload F G) = .ok out := by
  unfold accuser?
  constructor
  · intro h
    split at h
    · rename_i statuses hpayload
      split_ifs at h with hmark
      split at h
      · rename_i out hstep
        exact ⟨Option.some.inj h, hmark.1, statuses, out, hpayload, hmark.2, hstep⟩
      · cases h
    · cases h
  · rintro ⟨rfl, hlt, statuses, out, hpayload, hmark, hstep⟩
    simp only [hpayload, hlt, hmark, hstep, and_self, ↓reduceIte]

theorem accuser?_eq_none (h : ∀ (statuses : List (Option Status)) (out : View G × List Notice),
    (e.payload : Except Violation (Payload F G)) = .ok (.verification statuses) → e.sender.toNat < p.n →
      statuses[d.toNat]? = some (some .complaint) →
        v.step p e.sender (.verification statuses : Payload F G) ≠ .ok out) : v.accuser? p d e = none := by
  rw [Option.eq_none_iff_forall_ne_some]
  intro j hj
  obtain ⟨-, hlt, statuses, out, hpayload, hmark, hstep⟩ := accuser?_eq_some.1 hj
  exact h statuses out hpayload hlt hmark hstep

theorem accusers_append :
    v.accusers p d (log ++ later) = v.accusers p d log ++ (v.along p log).accusers p d later := by
  induction log generalizing v with
  | nil => rfl
  | cons e log ih =>
    rw [List.cons_append, accusers, ih, accusers, List.append_assoc]
    rfl

theorem accusers_concat :
    v.accusers p d (log ++ [e]) = v.accusers p d log ++ ((v.along p log).accuser? p d e).toList := by
  rw [accusers_append, accusers, accusers, List.append_nil]

/-- an accuser accuses by one of the entries -/
theorem mem_accusers : j ∈ v.accusers p d log ↔
    ∃ before e, before ++ [e] <+: log ∧ (v.along p before).accuser? p d e = some j := by
  induction log using List.reverseRecOn with
  | nil =>
    refine ⟨fun h => absurd h List.not_mem_nil, ?_⟩
    rintro ⟨before, e, hprefix, -⟩
    exact absurd (List.prefix_nil.1 hprefix) (List.concat_ne_nil _ _)
  | append_singleton log e ih =>
    rw [accusers_concat, List.mem_append, ih, Option.mem_toList]
    constructor
    · rintro (⟨before, e', hprefix, hj⟩ | hj)
      · exact ⟨before, e', hprefix.trans (List.prefix_append _ _), hj⟩
      · exact ⟨log, e, List.prefix_refl _, hj⟩
    · rintro ⟨before, e', hprefix, hj⟩
      rcases concat_prefix_concat.1 hprefix with ⟨rfl, rfl⟩ | hprefix
      · exact Or.inr hj
      · exact Or.inl ⟨before, e', hprefix, hj⟩

theorem accusers_mono (h : log <+: later) (hj : j ∈ v.accusers p d log) : j ∈ v.accusers p d later := by
  obtain ⟨before, e, hprefix, haccuser⟩ := mem_accusers.1 hj
  exact mem_accusers.2 ⟨before, e, hprefix.trans h, haccuser⟩

/-- whoever accuses a dealer complains about it -/
theorem mem_complainants_of_mem_accusers (hj : j ∈ v.accusers p d log) : j ∈ complainants F G p d log := by
  obtain ⟨before, e, hprefix, haccuser⟩ := mem_accusers.1 hj
  obtain ⟨rfl, hlt, statuses, -, hpayload, hmark, -⟩ := accuser?_eq_some.1 haccuser
  have he : e ∈ log := hprefix.subset (List.mem_append_right _ (List.mem_singleton_self e))
  exact mem_complainants.2 ⟨e, he, rfl, hlt, statuses, hpayload, hmark⟩

end View

/-! ## answers -/

namespace Shareholder

section

variable [NatCast F] [Zero F] [Add F] [SMul F F] {s : Shareholder F G} {r : Response F G}

/-- the rebuttal that reveals what is dealt to an accuser -/
def reveal (s : Shareholder F G) (accuser : Index) : Rebuttal F := ⟨accuser, pairFor s.f1 s.f2 accuser⟩

theorem reveal_of_identity {t : Shareholder F G} (h : s.identity = t.identity) : s.reveal = t.reveal := by
  have h1 : s.f1 = t.f1 := congrArg Identity.f1 h
  have h2 : s.f2 = t.f2 := congrArg Identity.f2 h
  funext accuser
  rw [reveal, reveal, h1, h2]

variable [Suite F G] [Sub F] [Mul F] [SMul F G] [Wire G] [Sampled F]

/-- a vector is rebutted if it marks the reader as a complaint -/
theorem rebuttals_onVerification {before : View G} {j : Index} {statuses : List (Option Status)}
    (h : s.onVerification before j statuses = .ok r) : DistributedKey.rebuttals r.outgoing =
      if statuses[s.index.toNat]? = some (some .complaint) then [s.reveal j] else [] := by
  obtain ⟨own, s₁, out, hown, hqual, rfl⟩ := onVerification_cases h
  have hproofs : DistributedKey.rebuttals out = [] := rebuttals_eq_nil fun b hb => by
    cases onQual_opcode hqual _ hb
  rw [rebuttals_append, hproofs, List.append_nil, hown, rebuttalsTo]
  by_cases hmark : own = some .complaint
  · rw [if_pos hmark, if_pos (congrArg some hmark)]
    rfl
  · rw [if_neg hmark, if_neg fun heq => hmark (Option.some.inj heq)]
    rfl

end

variable [Suite F G] [NatCast F] [Zero F] [One F] [Add F] [Sub F] [Mul F] [Inv F] [SMul F F] [Zero G] [Add G]
  [SMul F G] [Wire F] [Wire G] [Sampled F] [DecidableEq F] [DecidableEq G]
  {s : Shareholder F G} {e : Envelope} {r : Response F G}

/-- **One entry is answered by a rebuttal exactly if it accuses the reader.** -/
theorem Delivered.rebuttals (h : Delivered s e r) : DistributedKey.rebuttals r.outgoing =
    if s.behavior = .silent then [] else (s.view.accuser? s.params s.index e).toList.map s.reveal := by
  cases h with
  | refused cause hno =>
    have hnone : s.view.accuser? s.params s.index e = none :=
      View.accuser?_eq_none fun statuses out hpayload hlt _ => hno _ out hpayload hlt
    rw [hnone]
    exact (ite_self _).symm
  | @accepted payload view notices r hpayload hsender hstep hreact =>
    by_cases hsilent : s.behavior = .silent
    · simp only [hsilent, ↓reduceIte]
      rfl
    · simp only [hsilent, ↓reduceIte]
      cases payload with
      | verification statuses =>
        rw [rebuttals_onVerification hreact]
        change (if statuses[s.index.toNat]? = some (some .complaint) then [s.reveal e.sender] else []) = _
        split_ifs with hmark
        · rw [View.accuser?_eq_some.2 ⟨rfl, hsender, statuses, _, hpayload, hmark, hstep⟩]
          rfl
        · have hnone : s.view.accuser? s.params s.index e = none := by
            refine View.accuser?_eq_none fun statuses' out hpayload' _ hmark' => ?_
            obtain rfl := Payload.verification.inj (Except.ok.inj (hpayload'.symm.trans hpayload))
            exact absurd hmark' hmark
          rw [hnone]
          rfl
      | contribution _ | rebuttal _ | proof _ | bulkProof _ =>
        have hnone : s.view.accuser? s.params s.index e = none := by
          refine View.accuser?_eq_none fun statuses out hpayload' => ?_
          cases Except.ok.inj (hpayload'.symm.trans hpayload)
        rw [hnone]
        refine rebuttals_eq_nil fun b hb => ?_
        have hanswers := react_opcode hreact _ hb
        simp [answers, Payload.opcode] at hanswers

omit [One F] [Sub F] [Mul F] [Inv F] [DecidableEq F] [DecidableEq G] in
theorem rebuttals_contribute (s : Shareholder F G) : DistributedKey.rebuttals s.contribute.1.toList = [] := by
  refine rebuttals_eq_nil fun b hb => ?_
  cases s.contribute_opcode _ hb

end Shareholder

namespace History

variable [Suite F G] [NatCast F] [Zero F] [One F] [Add F] [Sub F] [Mul F] [Inv F] [SMul F F] [Zero G] [Add G]
  [SMul F G] [Wire F] [Wire G] [Sampled F] [DecidableEq F] [DecidableEq G]
  {s₀ s : Shareholder F G} {log : List Envelope} {out : List (Payload F G)} {b : Rebuttal F}

/-- **The rebuttals of a shareholder** are those of its accusers in the log, in order, and none if it is silent. -/
theorem rebuttals_eq (h₀ : s₀.Valid) (h : History s₀ log s out) : rebuttals out =
    if s₀.behavior = .silent then [] else (s₀.view.accusers s₀.params s₀.index log).map s₀.reveal := by
  induction h with
  | start => exact (ite_self _).symm
  | deal _ ih => rw [rebuttals_append, Shareholder.rebuttals_contribute, List.append_nil, ih]
  | @read log s out e r h hr ih =>
    have hidentity := h.identity h₀
    have hbehavior : s.behavior = s₀.behavior := congrArg Identity.behavior hidentity
    rw [rebuttals_append, ih, ((h.valid h₀).delivered_of_deliver hr).rebuttals, hbehavior,
      Shareholder.reveal_of_identity hidentity, h.index_eq h₀, h.params_eq h₀, h.view_eq h₀, View.accusers_concat]
    split_ifs
    · rfl
    · rw [List.map_append]

/-- a rebuttal was handed out for an accuser in the log -/
theorem mem_rebuttal (h₀ : s₀.Valid) (h : History s₀ log s out) (hout : .rebuttal b ∈ out) :
    b.accuser ∈ s₀.view.accusers s₀.params s₀.index log ∧ b = s₀.reveal b.accuser := by
  have hmem := mem_rebuttals.2 hout
  rw [h.rebuttals_eq h₀] at hmem
  split_ifs at hmem
  · cases hmem
  · obtain ⟨j, hj, rfl⟩ := List.mem_map.1 hmem
    exact ⟨hj, rfl⟩

end History

end DistributedKey
