/-
QUAL as the dealers that were endorsed first.

A dealer is endorsed once more than `k + f` announced vectors mark it as a success, rebuttals applied. The view keeps a
list of candidates that it adds to on every vector and every rebuttal, up to `f + 1` of them. Read off the whole log
instead, each dealer has a position at which it came to be endorsed, and the dealers have an order: by this position, and
those of one position by index.

- `endorsedAt?`: the position. `endorsedAt?_concat`: one more entry leaves it where it is, or brings it about.
- `ranking`: the endorsed dealers of a log in their order, computed from the log alone.
- `candidates_after`: what one entry adds to the candidates.
- `candidates_ofLog`: the candidates are the first `f + 1` of the ranking.
- `qual_first_endorsed`: so QUAL is frozen at the first position by which `f + 1` dealers are endorsed, and holds the
  least of them, among fewer than `2 ^ 32` shareholders. `endorsed_overlooked`: among `2 ^ 32` of them it is not frozen.
-/
import DistributedKey.Proofs.History
import DistributedKey.Proofs.Silent.Uniform

namespace DistributedKey

variable {F G : Type}

namespace View

section

variable {p : Params} {v : View G} {d : Index} {verdicts : StatusMatrix} {cs : List Index}

/-! ## candidates -/

/-- more than `k + f` announced vectors mark the dealer as a success -/
def Endorsed (p : Params) (v : View G) (d : Index) : Prop := p.k + p.f < (v.verdicts.endorsers d.toNat).card

instance : Decidable (Endorsed p v d) := inferInstanceAs (Decidable (_ < _))

/-- nobody is endorsed before anything is read -/
theorem not_endorsed_initial : ¬ Endorsed p (initial p.n : View G) d := by
  have hnobody : (initial p.n : View G).verdicts.endorsers d.toNat = ∅ := by
    refine Finset.eq_empty_of_forall_notMem fun k hk => ?_
    obtain ⟨cells, hrow, -⟩ := StatusMatrix.cell_eq_some.1 (StatusMatrix.mem_endorsers.1 hk)
    simp [initial, StatusMatrix.empty, StatusMatrix.row?_eq_some, List.getElem?_replicate] at hrow
  simp [Endorsed, hnobody]

/-- the endorsed dealers that are no candidates yet join the candidates by index, as long as there is room -/
theorem nextCandidates_eq (hn : p.n < UInt32.size) (hrows : verdicts.rows.length = p.n) (hlen : cs.length ≤ p.f + 1) :
    nextCandidates p verdicts cs =
      (cs ++ p.dealers.filter fun d => d ∉ cs ∧ p.k + p.f < (verdicts.endorsers d.toNat).card).take (p.f + 1) := by
  rw [nextCandidates_eq_foldl, Params.upTo_eq_dealers hn, foldl_nominate p verdicts (Params.nodup_dealers hn.le) hlen]
  congr 2
  refine List.filter_congr fun d _ => ?_
  rw [StatusMatrix.successesFor_eq_card (hrows ▸ hn)]

theorem tryQual_candidates (p : Params) (v : View G) : (tryQual p v).candidates =
    if v.qual.isSome then v.candidates else nextCandidates p v.verdicts v.candidates := by
  unfold tryQual
  split_ifs <;> rfl

end

variable [Suite F G] [Wire F] [Wire G] [Zero G] [Add G] [SMul F G] [DecidableEq F] [DecidableEq G] [NatCast F]
  [Sub F] [Mul F] [Zero F] [One F] [Inv F]
variable {p : Params} {v : View G} {d d' : Index} {e : Envelope} {log : List Envelope} {t : Nat}

/-- every change of the matrix is followed by a search for candidates -/
theorem candidates_of_after (h : Valid p v) (e : Envelope) :
    (v.after p e).verdicts = v.verdicts ∧ (v.after p e).candidates = v.candidates ∨
      (v.after p e).candidates = if v.qual.isSome then v.candidates
        else nextCandidates p (v.after p e).verdicts v.candidates := by
  rcases after_cases p v e with hv | ⟨payload, notices, -, -, hstep⟩
  · rw [hv]
    exact Or.inl ⟨rfl, rfl⟩
  · generalize v.after p e = v' at hstep ⊢
    cases payload with
    | contribution c =>
      obtain ⟨hw, -⟩ := step_contribution_eq_ok.1 hstep
      rw [takeContribution_eq_ok h.commitments_eq_seen] at hw
      obtain ⟨-, rfl⟩ := hw
      exact Or.inl ⟨rfl, rfl⟩
    | verification statuses =>
      obtain ⟨hw, -⟩ := step_verification_eq_ok.1 hstep
      obtain ⟨-, -, -, rfl⟩ := takeVerification_eq_ok.1 hw
      rw [tryQual_verdicts, tryQual_candidates]
      exact Or.inr rfl
    | rebuttal b =>
      obtain ⟨hw, -⟩ := step_rebuttal_eq_ok.1 hstep
      obtain ⟨-, -, -, -, rfl⟩ := takeRebuttal_eq_ok.1 hw
      rw [tryQual_verdicts, tryQual_candidates]
      exact Or.inr rfl
    | proof π =>
      obtain ⟨hw, -⟩ := step_proof_eq_ok.1 hstep
      rw [takeProof_eq_ok h.publicTerms_eq_commitments] at hw
      obtain ⟨qual, c, c₀, -, -, -, -, -, -, -, rfl⟩ := hw
      exact Or.inl ⟨rfl, rfl⟩
    | bulkProof b =>
      rw [h.takeBulkProof_frame hstep]
      exact Or.inl ⟨rfl, rfl⟩

/-- **What one entry adds to the candidates:** by index, the dealers that it makes endorsed, as long as there is room.
The premise is that nobody who was endorsed before has been left out. -/
theorem candidates_after (hn : p.n < UInt32.size) (h : Valid p v)
    (hcandidates : v.candidates.length < p.f + 1 → ∀ d : Index, d ∈ v.candidates ↔ d.toNat < p.n ∧ Endorsed p v d)
    (e : Envelope) : (v.after p e).candidates =
      (v.candidates ++ p.dealers.filter fun d => ¬ Endorsed p v d ∧ Endorsed p (v.after p e) d).take (p.f + 1) := by
  rcases candidates_of_after h e with ⟨hverdicts, hsame⟩ | hnext
  · have hnone : (p.dealers.filter fun d => ¬ Endorsed p v d ∧ Endorsed p (v.after p e) d) = [] := by
      refine List.filter_eq_nil_iff.2 fun d _ => ?_
      simp [Endorsed, hverdicts]
    rw [hsame, hnone, List.append_nil, List.take_of_length_le h.candidates_length]
  · rw [hnext]
    split_ifs with hqual
    · obtain ⟨q, hq⟩ := Option.isSome_iff_exists.1 hqual
      have hfull := (h.qual_iff.1 hq).1
      rw [List.take_append_of_le_length hfull, List.take_of_length_le h.candidates_length]
    · have hroom : v.candidates.length < p.f + 1 := by
        by_contra hfull
        exact hqual (Option.isSome_iff_exists.2 ⟨_, h.qual_iff.2 ⟨by omega, rfl⟩⟩)
      rw [nextCandidates_eq hn (h.after e).rows_length h.candidates_length]
      congr 2
      refine List.filter_congr fun d hd => decide_eq_decide.2 (and_congr_left' (not_congr ?_))
      exact (hcandidates hroom d).trans (and_iff_right (Params.mem_dealers.1 hd))

/-! ## positions -/

section

variable (G)

/-- the number of entries after which the dealer is endorsed -/
def endorsedAt? (p : Params) (log : List Envelope) (d : Index) : Option Nat :=
  (List.range (log.length + 1)).find? fun t => Endorsed p (ofLog p (log.take t) : View G) d

/-- the dealers that are endorsed by a position -/
def endorsedBy (p : Params) (log : List Envelope) (t : Nat) : Finset Index :=
  p.dealers.toFinset.filter fun d => (endorsedAt? G p log d).any (· ≤ t)

/-- the endorsed dealers, by position and those of one position by index -/
def ranking (p : Params) (log : List Envelope) : List Index :=
  (List.range (log.length + 1)).flatMap fun t => p.dealers.filter fun d => endorsedAt? G p log d = some t

/-- the first dealer came to be endorsed at an earlier position, or at the same and has the lower index -/
def Precedes (p : Params) (log : List Envelope) (d d' : Index) : Prop :=
  ∃ t t', endorsedAt? G p log d = some t ∧ endorsedAt? G p log d' = some t' ∧ (t < t' ∨ t = t' ∧ d < d')

end

theorem endorsedAt?_eq_some : endorsedAt? G p log d = some t ↔ Endorsed p (ofLog p (log.take t) : View G) d ∧
    t ≤ log.length ∧ ∀ u < t, ¬ Endorsed p (ofLog p (log.take u) : View G) d := by
  rw [endorsedAt?, List.find?_range_eq_some]
  simp

/-- whoever is endorsed stays so -/
theorem Endorsed.mono {log' : List Envelope} (h : Endorsed p (ofLog p log : View G) d) (hpre : log <+: log') :
    Endorsed p (ofLog p log' : View G) d :=
  lt_of_lt_of_le h (Finset.card_le_card ((settles_ofLog p hpre).successes.endorsers_subset d.toNat))

theorem endorsedAt?_isSome : (endorsedAt? G p log d).isSome ↔ Endorsed p (ofLog p log : View G) d := by
  constructor
  · intro h
    obtain ⟨t, ht⟩ := Option.isSome_iff_exists.1 h
    exact (endorsedAt?_eq_some.1 ht).1.mono (List.take_prefix t log)
  · intro h
    refine List.find?_isSome.2 ⟨log.length, List.mem_range.2 (Nat.lt_succ_self _), ?_⟩
    simpa using h

/-- the position is that of any part of the log that reaches so far -/
theorem endorsedAt?_take {T : Nat} :
    endorsedAt? G p (log.take T) d = some t ↔ endorsedAt? G p log d = some t ∧ t ≤ T := by
  have htake : ∀ u ≤ T, (log.take T).take u = log.take u := fun u hu => by rw [List.take_take, min_eq_left hu]
  rw [endorsedAt?_eq_some, endorsedAt?_eq_some, List.length_take]
  constructor
  · rintro ⟨hendorsed, hle, hfirst⟩
    have hT : t ≤ T := hle.trans (min_le_left _ _)
    refine ⟨⟨htake t hT ▸ hendorsed, hle.trans (min_le_right _ _), fun u hu => ?_⟩, hT⟩
    exact htake u (hu.le.trans hT) ▸ hfirst u hu
  · rintro ⟨⟨hendorsed, hle, hfirst⟩, hT⟩
    refine ⟨(htake t hT).symm ▸ hendorsed, le_min hT hle, fun u hu => ?_⟩
    exact (htake u (hu.le.trans hT)).symm ▸ hfirst u hu

theorem endorsedAt?_le (h : endorsedAt? G p log d = some t) : t ≤ log.length := (endorsedAt?_eq_some.1 h).2.1

/-- one more entry leaves a position where it is, or brings it about -/
theorem endorsedAt?_concat : endorsedAt? G p (log ++ [e]) d = some t ↔ endorsedAt? G p log d = some t ∨
    t = log.length + 1 ∧ ¬ Endorsed p (ofLog p log : View G) d ∧ Endorsed p (ofLog p (log ++ [e]) : View G) d := by
  have hbefore : endorsedAt? G p log d = some t ↔ endorsedAt? G p (log ++ [e]) d = some t ∧ t ≤ log.length := by
    rw [← endorsedAt?_take, List.take_left]
  have hlen : (log ++ [e]).length = log.length + 1 := by simp
  constructor
  · intro h
    by_cases hle : t ≤ log.length
    · exact Or.inl (hbefore.2 ⟨h, hle⟩)
    · have ht : t = log.length + 1 := by
        have := hlen ▸ endorsedAt?_le h
        omega
      obtain ⟨hendorsed, -, hfirst⟩ := endorsedAt?_eq_some.1 h
      have hnot := hfirst log.length (by omega)
      rw [List.take_left] at hnot
      rw [List.take_of_length_le (by omega)] at hendorsed
      exact Or.inr ⟨ht, hnot, hendorsed⟩
  · rintro (h | ⟨rfl, hnot, hendorsed⟩)
    · exact (hbefore.1 h).1
    · refine endorsedAt?_eq_some.2 ⟨by rwa [List.take_of_length_le (by omega)], by omega, fun u hu hearlier => ?_⟩
      refine hnot (hearlier.mono ?_)
      rw [List.take_append_of_le_length (by omega)]
      exact List.take_prefix u log

/-! ## the ranking -/

theorem mem_ranking : d ∈ ranking G p log ↔ d.toNat < p.n ∧ Endorsed p (ofLog p log : View G) d := by
  simp only [ranking, List.mem_flatMap, List.mem_filter, List.mem_range, Params.mem_dealers, decide_eq_true_eq,
    ← endorsedAt?_isSome, Option.isSome_iff_exists]
  constructor
  · rintro ⟨t, -, hd, ht⟩
    exact ⟨hd, t, ht⟩
  · rintro ⟨hd, t, ht⟩
    exact ⟨t, Nat.lt_succ_of_le (endorsedAt?_le ht), hd, ht⟩

theorem pairwise_ranking (hn : p.n ≤ UInt32.size) (log : List Envelope) :
    (ranking G p log).Pairwise (Precedes G p log) := by
  refine List.pairwise_flatMap.2 ⟨fun t _ => ?_, List.pairwise_lt_range.imp fun {t t'} hlt d hd d' hd' => ?_⟩
  · refine ((Params.sorted_dealers hn).filter _).imp_of_mem fun {d d'} hd hd' hlt => ?_
    have ht := of_decide_eq_true (List.mem_filter.1 hd).2
    have ht' := of_decide_eq_true (List.mem_filter.1 hd').2
    exact ⟨t, t, ht, ht', Or.inr ⟨rfl, hlt⟩⟩
  · have ht := of_decide_eq_true (List.mem_filter.1 hd).2
    have ht' := of_decide_eq_true (List.mem_filter.1 hd').2
    exact ⟨t, t', ht, ht', Or.inl hlt⟩

theorem Precedes.ne (h : Precedes G p log d d') : d ≠ d' := by
  rintro rfl
  obtain ⟨t, t', ht, ht', hlt⟩ := h
  obtain rfl := Option.some.inj (ht.symm.trans ht')
  exact hlt.elim (Nat.lt_irrefl t) fun hlt => UInt32.lt_irrefl d hlt.2

theorem nodup_ranking (hn : p.n ≤ UInt32.size) (log : List Envelope) : (ranking G p log).Nodup :=
  (pairwise_ranking hn log).imp Precedes.ne

/-- one more entry adds to the ranking, by index, whom it makes endorsed -/
theorem ranking_concat : ranking G p (log ++ [e]) = ranking G p log ++ p.dealers.filter fun d =>
    ¬ Endorsed p (ofLog p log : View G) d ∧ Endorsed p (ofLog p (log ++ [e]) : View G) d := by
  have hlen : (log ++ [e]).length + 1 = log.length + 1 + 1 := by simp
  rw [ranking, hlen, List.range_succ, List.flatMap_append, List.flatMap_singleton]
  congr 1
  · refine List.flatMap_congr fun t ht => List.filter_congr fun d _ => decide_eq_decide.2 ?_
    have ht := List.mem_range.1 ht
    exact endorsedAt?_concat.trans (or_iff_left fun h => by omega)
  · refine List.filter_congr fun d _ => decide_eq_decide.2 (endorsedAt?_concat.trans ?_)
    rw [or_iff_right fun h => Nat.not_succ_le_self _ (endorsedAt?_le h)]
    exact and_iff_right rfl

/-- taking some before something is added makes no difference to taking as many afterwards -/
theorem take_take_append {l added : List Index} {m : Nat} : (l.take m ++ added).take m = (l ++ added).take m := by
  rw [List.take_append, List.take_append, List.take_take, min_self, List.length_take]
  congr 2
  omega

/-- **The candidates are the first `f + 1` dealers of the ranking**: adding to the list entry by entry comes to the same
as ranking the dealers by the whole log. -/
theorem candidates_ofLog (hn : p.n < UInt32.size) (log : List Envelope) :
    (ofLog p log : View G).candidates = (ranking G p log).take (p.f + 1) := by
  induction log using List.reverseRecOn with
  | nil =>
    have hnobody : ranking G p [] = [] := List.eq_nil_iff_forall_not_mem.2 fun d hd => by
      exact not_endorsed_initial (mem_ranking.1 hd).2
    rw [hnobody]
    rfl
  | append_singleton log e ih =>
    have hcandidates : (ofLog p log : View G).candidates.length < p.f + 1 → ∀ d : Index,
        d ∈ (ofLog p log : View G).candidates ↔ d.toNat < p.n ∧ Endorsed p (ofLog p log : View G) d := by
      intro hroom d
      rw [ih, List.length_take] at hroom
      rw [ih, List.take_of_length_le (by omega), mem_ranking]
    have hadded := candidates_after hn (valid_ofLog p log) hcandidates e
    rw [← ofLog_concat] at hadded
    calc (ofLog p (log ++ [e]) : View G).candidates
        = ((ofLog p log : View G).candidates ++ p.dealers.filter fun d =>
            ¬ Endorsed p (ofLog p log : View G) d ∧ Endorsed p (ofLog p (log ++ [e]) : View G) d).take (p.f + 1) := hadded
      _ = (ranking G p log ++ p.dealers.filter fun d =>
            ¬ Endorsed p (ofLog p log : View G) d ∧ Endorsed p (ofLog p (log ++ [e]) : View G) d).take (p.f + 1) := by
          rw [ih, take_take_append]
      _ = (ranking G p (log ++ [e])).take (p.f + 1) := by rw [ranking_concat]

theorem ranking_prefix {log' : List Envelope} (h : log <+: log') : ranking G p log <+: ranking G p log' := by
  obtain ⟨later, rfl⟩ := h
  induction later using List.reverseRecOn with
  | nil => rw [List.append_nil]
  | append_singleton later e ih =>
    rw [← List.append_assoc, ranking_concat]
    exact ih.trans (List.prefix_append _ _)

/-- whoever is not among the first of the ranking comes after them -/
theorem precedes_of_not_mem_take (hn : p.n ≤ UInt32.size) {m : Nat} (hd : d ∈ (ranking G p log).take m)
    (hd' : d' ∈ ranking G p log) (hout : d' ∉ (ranking G p log).take m) : Precedes G p log d d' := by
  have hpairwise := pairwise_ranking (G := G) hn log
  rw [← List.take_append_drop m (ranking G p log)] at hpairwise hd'
  exact (List.pairwise_append.1 hpairwise).2.2 d hd d' ((List.mem_append.1 hd').resolve_left hout)

theorem endorsedBy_eq {T : Nat} : endorsedBy G p log T = (ranking G p (log.take T)).toFinset := by
  ext d
  rw [endorsedBy, Finset.mem_filter, List.mem_toFinset, List.mem_toFinset, mem_ranking, Params.mem_dealers,
    ← endorsedAt?_isSome, Option.isSome_iff_exists, Option.any_eq_true]
  simp only [endorsedAt?_take, decide_eq_true_eq]

/-- by the end of the log it is whom its view shows as endorsed -/
theorem mem_endorsedBy_length : d ∈ endorsedBy G p log log.length ↔ d.toNat < p.n ∧ Endorsed p (ofLog p log : View G) d := by
  rw [endorsedBy_eq, List.mem_toFinset, List.take_length, mem_ranking]

theorem card_endorsedBy (hn : p.n ≤ UInt32.size) {T : Nat} :
    (endorsedBy G p log T).card = (ranking G p (log.take T)).length := by
  rw [endorsedBy_eq, List.toFinset_card_of_nodup (nodup_ranking hn _)]

/-! ## QUAL -/

section

variable (G)

/-- the first `f + 1` dealers of the ranking -/
def firstEndorsed (p : Params) (log : List Envelope) : IndexSet := .ofList ((ranking G p log).take (p.f + 1))

end

/-- once there are enough of them, the first dealers of the ranking are what they are by the whole log -/
theorem firstEndorsed_take (hn : p.n ≤ UInt32.size) {T : Nat} (h : p.f + 1 ≤ (endorsedBy G p log T).card) :
    firstEndorsed G p (log.take T) = firstEndorsed G p log := by
  rw [card_endorsedBy hn] at h
  obtain ⟨later, hlater⟩ := ranking_prefix (G := G) (p := p) (List.take_prefix T log)
  rw [firstEndorsed, firstEndorsed, ← hlater, List.take_append_of_le_length h]

theorem qual_ofLog_take (hn : p.n < UInt32.size) {T : Nat} {q : IndexSet} : (ofLog p (log.take T) : View G).qual = some q ↔
    p.f + 1 ≤ (endorsedBy G p log T).card ∧ firstEndorsed G p log = q := by
  rw [(valid_ofLog p _).qual_iff, candidates_ofLog hn, List.length_take, le_min_iff, and_iff_right le_rfl,
    ← card_endorsedBy hn.le]
  exact and_congr_right fun h => by rw [← firstEndorsed_take hn.le h, firstEndorsed]

/-! ## as many shareholders as indices -/

section

variable (F G)

/-- a vector that marks every dealer as a success -/
def unanimous (p : Params) (j : Index) : Envelope :=
  (Payload.verification (List.replicate p.n (some .success)) : Payload F G).toEnvelope j

def twoVectors (p : Params) : List Envelope := [unanimous F G p 0, unanimous F G p 1]

end

variable [LawfulWire F] [LawfulWire G]

/-- a shareholder's first vector is taken in -/
theorem row?_after_unanimous (h : Valid p v) (hn : p.n < 2 ^ 64) {j : Index} (hj : j.toNat < p.n)
    (hnone : v.verdicts.row? j.toNat = none) (i : Nat) : (v.after p (unanimous F G p j)).verdicts.row? i =
      if i = j.toNat then some (List.replicate p.n (some .success)) else v.verdicts.row? i := by
  have hfits : (Payload.verification (List.replicate p.n (some .success)) : Payload F G).Fits := by
    rwa [Payload.Fits, List.length_replicate]
  have hlt : j.toNat < v.verdicts.rows.length := h.rows_length.symm ▸ hj
  have hstep : v.step p j (.verification (List.replicate p.n (some .success)) : Payload F G) = .ok (_, []) :=
    step_verification_eq_ok.2 ⟨takeVerification_eq_ok.2 ⟨hlt, hnone, List.length_replicate, rfl⟩, rfl⟩
  rw [unanimous, after_of_step (Payload.payload_toEnvelope hfits j) hj hstep, tryQual_verdicts, StatusMatrix.row?_setRow hlt]

/-- two vectors are two endorsements of each dealer -/
theorem endorsed_twoVectors (hn : p.n < 2 ^ 64) (htwo : 1 < p.n) (hfew : p.k + p.f < 2) (hd : d.toNat < p.n) :
    Endorsed p (ofLog p (twoVectors F G p) : View G) d := by
  have hvalid := valid_initial (G := G) p
  have hinitial : ∀ i : Nat, i < p.n → (initial p.n : View G).verdicts.row? i = none := fun i hi => by
    simp [initial, StatusMatrix.empty, StatusMatrix.row?, hi]
  have hfirst := row?_after_unanimous (F := F) hvalid hn (j := 0) (by simp; omega) (hinitial _ (by simp; omega))
  have hsecond := row?_after_unanimous (hvalid.after (unanimous F G p 0)) hn (j := 1) htwo (by
    rw [hfirst, if_neg (by decide)]
    exact hinitial _ htwo)
  have hboth : {0, 1} ⊆ (ofLog p (twoVectors F G p) : View G).verdicts.endorsers d.toNat := by
    intro i hi
    have hrow : (ofLog p (twoVectors F G p) : View G).verdicts.row? i = some (List.replicate p.n (some .success)) := by
      rw [twoVectors, ofLog, along, List.foldl_cons, List.foldl_cons, List.foldl_nil, hsecond, hfirst]
      rcases Finset.mem_insert.1 hi with rfl | hi
      · rw [if_neg (by decide), if_pos (by decide)]
      · obtain rfl := Finset.mem_singleton.1 hi
        rw [if_pos (by decide)]
    exact StatusMatrix.mem_endorsers.2 (StatusMatrix.cell_eq_some.2 ⟨_, hrow, by simp [hd]⟩)
  exact lt_of_lt_of_le hfew (Finset.card_le_card hboth)

end View

variable [Suite F G] [NatCast F] [Zero F] [One F] [Add F] [Sub F] [Mul F] [Inv F] [SMul F F] [Zero G] [Add G]
  [SMul F G] [Wire F] [Wire G] [Sampled F] [DecidableEq F] [DecidableEq G]

/-- **QUAL is the set of the `f + 1` dealers that were endorsed first.** However many entries of a log a shareholder has
read, whatever they are, its candidates are the first of the ranking by what it has read; QUAL is frozen exactly if at
least `f + 1` dealers are endorsed by then; and it then consists, by increasing index, of the `f + 1` dealers that come
first, by the position at which they came to be endorsed and then by index, among all that the whole log endorses. -/
theorem qual_first_endorsed {s₀ : Shareholder F G} (h₀ : s₀.Fresh) (hn : s₀.params.n < UInt32.size)
    (log : List Envelope) (T : Nat) :
    (∃ s out, History s₀ (log.take T) s out) ∧ ∀ s out, History s₀ (log.take T) s out →
      s.view.candidates = (View.ranking G s₀.params (log.take T)).take (s₀.params.f + 1) ∧
      (s.view.qual.isSome ↔ s₀.params.f + 1 ≤ (View.endorsedBy G s₀.params log T).card) ∧
      ∀ q, s.view.qual = some q → q = View.firstEndorsed G s₀.params log ∧ q.size = s₀.params.f + 1 ∧
        q.elems.Pairwise (· < ·) ∧ (∀ d ∈ q, d ∈ View.endorsedBy G s₀.params log T) ∧
        ∀ d ∈ q, ∀ d' ∉ q, d'.toNat < s₀.params.n → (View.endorsedAt? G s₀.params log d').isSome →
          View.Precedes G s₀.params log d d' := by
  refine ⟨History.exists_of_log h₀.valid _, fun s out h => ?_⟩
  have hview := h.view_eq_ofLog h₀
  rw [hview]
  refine ⟨View.candidates_ofLog hn _, ?_, fun q hq => ?_⟩
  · rw [Option.isSome_iff_exists]
    simp only [View.qual_ofLog_take hn]
    constructor
    · rintro ⟨_, henough, -⟩
      exact henough
    · intro henough
      exact ⟨_, henough, rfl⟩
  · obtain ⟨henough, rfl⟩ := (View.qual_ofLog_take hn).1 hq
    refine ⟨rfl, (View.valid_ofLog _ _).qual_size hq, IndexSet.sorted _, fun d hd => ?_,
      fun d hd d' hd' hlt hendorsed => ?_⟩
    · rw [← View.firstEndorsed_take hn.le henough] at hd
      rw [View.endorsedBy_eq, List.mem_toFinset]
      exact List.mem_of_mem_take (IndexSet.mem_ofList.1 hd)
    · refine View.precedes_of_not_mem_take hn.le (IndexSet.mem_ofList.1 hd) ?_ fun hmem => hd' (IndexSet.mem_ofList.2 hmem)
      exact View.mem_ranking.2 ⟨hlt, View.endorsedAt?_isSome.1 hendorsed⟩

/-- five shareholders that have come to rest: QUAL is the two dealers that were endorsed first -/
theorem qual_first_endorsed_five : ∃ (log : List Envelope) (s : Shareholder (ZMod 11) (ZMod 11))
    (out : List (Payload (ZMod 11) (ZMod 11))), History (Cast.five.start 1) log s out ∧
      2 ≤ (View.endorsedBy (ZMod 11) ⟨5, 2, 1⟩ log log.length).card ∧
        s.view.qual = some (View.firstEndorsed (ZMod 11) ⟨5, 2, 1⟩ log) := by
  obtain ⟨posts, s, out, -, -, hhistory, hqual, -, -⟩ := Cast.five_at_rest
  have hn : (Cast.five.start 1).params.n < UInt32.size := by
    rw [Cast.params_start_five]
    decide
  obtain ⟨-, hfirst⟩ := qual_first_endorsed Cast.fresh_five hn (posts.map Post.seal) (posts.map Post.seal).length
  rw [List.take_length, Cast.params_start_five] at hfirst
  obtain ⟨-, hiff, hq⟩ := hfirst s out hhistory
  obtain ⟨q, hsome⟩ := Option.isSome_iff_exists.1 hqual
  exact ⟨_, s, out, hhistory, hiff.1 hqual, (hq q hsome).1 ▸ hsome⟩

/-- `2 ^ 32` shareholders, one share to reconstruct, no fault tolerated -/
def allIndices : Params := ⟨4294967296, 1, 0⟩

def oneOfAllIndices : Shareholder (ZMod 11) (ZMod 11) :=
  (Cast.uniform (ZMod 11) { n := 4294967296, k := 1, f := 0 } 0).start 1

/-- Two vectors endorse every dealer of `2 ^ 32`, and a shareholder that has read them has not frozen QUAL. -/
theorem endorsed_overlooked : oneOfAllIndices.Fresh ∧ oneOfAllIndices.params = allIndices ∧
    allIndices.f + 1 ≤
      (View.endorsedBy (ZMod 11) allIndices (View.twoVectors (ZMod 11) (ZMod 11) allIndices) 2).card ∧
    ∃ s out, History oneOfAllIndices (View.twoVectors (ZMod 11) (ZMod 11) allIndices) s out ∧ s.view.qual = none := by
  have hfresh : oneOfAllIndices.Fresh :=
    Shareholder.fresh_started (Cast.validate_uniformGroup rfl) (Cast.key_uniformGroup (by decide)) rfl rfl
  have hparams : oneOfAllIndices.params = allIndices :=
    show (Cast.uniform (ZMod 11) { n := 4294967296, k := 1, f := 0 } 0).params = allIndices from Cast.params_uniform
  have hendorsed : View.Endorsed allIndices (View.ofLog allIndices (View.twoVectors (ZMod 11) (ZMod 11) allIndices) :
      View (ZMod 11)) 0 := View.endorsed_twoVectors (by decide) (by decide) (by decide) (by decide)
  obtain ⟨s, out, hs⟩ := History.exists_of_log hfresh.valid (View.twoVectors (ZMod 11) (ZMod 11) allIndices)
  refine ⟨hfresh, hparams, Finset.card_pos.2 ⟨0, View.mem_endorsedBy_length.2 ⟨by decide, hendorsed⟩⟩, s, out, hs, ?_⟩
  rw [hs.view_eq_ofLog hfresh, hparams]
  exact (View.valid_ofLog _ _).qual_eq_none rfl

end DistributedKey
