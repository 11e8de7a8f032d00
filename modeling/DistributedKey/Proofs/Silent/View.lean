/-
The view of an orderly log, told by its posts.

`Shows posts v` says what each table of a view holds after `posts`: whose contribution, vector and proof is in, QUAL and R
as the posts determine them, the constant terms and the shares that were proved, and the public key as soon as enough bulk
proofs of those who dealt before are in. A bulk proof of a dealer that is late may be refused, so U is only bounded.

- `Shows.takeContribution`, `Shows.takeVerification`, `Shows.takeProof`, `Shows.takeBulkProof`: what one message keeps.
- `Shows.after`: what one more post keeps, taken or refused.
-/
import DistributedKey.Proofs.Silent.Dealing
import DistributedKey.Proofs.View.Reconstruct

namespace DistributedKey

open Checked

variable {F G : Type}
variable [Field F] [AddCommGroup G] [Module F G] [Suite F G] [DecidableEq G]

namespace Cast

/-- the shared secret: what the dealers of QUAL have at zero, summed up -/
def secret (C : Cast F G) (posts : List (Post F G)) : F :=
  ((C.chosen posts).elems.map fun d => (C.start d).f1.eval (0 : F)).sum

structure Shows (C : Cast F G) (posts : List (Post F G)) (v : View G) : Prop where
  valid : v.Valid C.params
  seen : ∀ d : Index, d.toNat < C.params.n → v.seen[d.toNat]? = some (decide (d ∈ senders .contribution posts))
  commitments : ∀ d : Index, d.toNat < C.params.n → v.commitments[d.toNat]? =
    some (if d ∈ senders .contribution posts then some (C.start d).commitments else none)
  row : ∀ j : Index, j.toNat < C.params.n → v.verdicts.row? j.toNat =
    if j ∈ senders .verification posts then some (C.vector posts) else none
  candidates : ¬ C.Frozen posts → v.candidates = []
  qual : v.qual = if C.Frozen posts then some (C.chosen posts) else none
  proofSet : ∀ d, d ∈ v.proofSet ↔ d ∈ senders .proof posts
  rSet : v.rSet = C.rest posts
  term : ∀ (d : Index) (y : G), v.publicTerms[d.toNat]? = some (some y) →
    y = (C.start d).f1.eval (0 : F) • (generator : G)
  proved : ∀ d ∈ senders .proof posts, ∃ y, v.publicTerms[d.toNat]? = some (some y)
  bulk : ∀ j ∈ v.uSet, j ∈ senders .bulkProof posts ∧ ∃ m, v.provenShares[j.toNat]? = some (some m) ∧
    ∀ r, C.rest posts = some r → ∀ d ∈ r, m.find? d = some ((C.pair d j).value • (generator : G))
  key : C.Frozen posts ∧ v.publicKey = some (C.secret posts • (generator : G)) ∨
    v.publicKey = none ∧ v.uSet.size < C.params.k ∧ ∀ j ∈ senders .bulkProof posts, j ∈ C.dealt posts → j ∈ v.uSet

variable {C : Cast F G} {posts : List (Post F G)} {x : Post F G} {v v' : View G} {d i j : Index}

theorem shows_initial (hp : C.params.Admissible) : C.Shows [] (View.initial C.params.n) where
  valid := View.valid_initial C.params
  seen d hd := by simp [View.initial, hd]
  commitments d hd := by simp [View.initial, hd]
  row j hj := by simp [View.initial, StatusMatrix.empty, StatusMatrix.row?, hj]
  candidates _ := rfl
  qual := by simp [View.initial, Frozen]
  proofSet d := by simp [View.initial, IndexSet.not_mem_empty]
  rSet := rfl
  term d y hy := by simp [View.initial, List.getElem?_replicate] at hy
  proved d hd := absurd hd List.not_mem_nil
  bulk j hj := absurd hj IndexSet.not_mem_empty
  key := Or.inr ⟨rfl, Nat.zero_lt_of_lt hp.faults_lt, fun j hj => absurd hj List.not_mem_nil⟩

theorem Shows.qual_eq_none (hs : C.Shows posts v) : v.qual = none ↔ ¬ C.Frozen posts := by
  rw [hs.qual]
  split_ifs with hf <;> simp [hf]

theorem Shows.isSome_qual (hs : C.Shows posts v) : v.qual.isSome ↔ C.Frozen posts := by
  rw [hs.qual]
  split_ifs with hf <;> simp [hf]

/-! ## what one more post leaves as it was -/

variable [Wire F] [Wire G] [DecidableEq F]

theorem Orderly.rest_concat_of_ne (h : C.Orderly posts) (hx : x.2.opcode ≠ .proof) :
    C.rest (posts ++ [x]) = C.rest posts := by
  rcases hr : C.rest posts with _ | r
  · have hnil : senders .proof posts = [] := by simpa [rest] using hr
    rw [rest, senders_concat_of_ne hx, hnil]
    rfl
  · exact h.rest_eq (List.prefix_append _ _) hr

theorem Orderly.qual_concat_of_ne (h : C.Orderly posts) (hx : x.2.opcode ≠ .verification) :
    (if C.Frozen (posts ++ [x]) then some (C.chosen (posts ++ [x])) else none) =
      if C.Frozen posts then some (C.chosen posts) else none := by
  by_cases hf : C.Frozen posts
  · rw [if_pos hf, if_pos ((frozen_concat_of_ne hx).2 hf),
      (h.stocked_of_frozen hf).chosen_eq (List.prefix_append _ _)]
  · rw [if_neg hf, if_neg fun hf' => hf ((frozen_concat_of_ne hx).1 hf')]

theorem Shows.row_concat (hs : C.Shows posts v) (h : C.Orderly posts) (hx : x.2.opcode ≠ .verification)
    (hj : j.toNat < C.params.n) : v.verdicts.row? j.toNat =
      if j ∈ senders .verification (posts ++ [x]) then some (C.vector (posts ++ [x])) else none := by
  rw [hs.row j hj, senders_concat_of_ne hx]
  split_ifs with hposted
  · rw [(h.stocked (List.ne_nil_of_mem hposted)).vector_eq (List.prefix_append _ _)]
  · rfl

/-- who has posted a bulk proof knew R -/
theorem Orderly.rest_of_bulk (h : C.Orderly posts) (hj : j ∈ senders .bulkProof posts) :
    ∃ r, C.rest posts = some r := by
  rcases hproofs : senders .proof posts with _ | ⟨first, later⟩
  · exact absurd hproofs (h.proved (List.ne_nil_of_mem hj))
  · exact ⟨_, by rw [rest, hproofs]; rfl⟩

theorem Orderly.stocked_of_bulk (h : C.Orderly posts) (hj : j ∈ senders .bulkProof posts) : C.Stocked posts :=
  h.stocked_of_frozen (h.frozen (h.proved (List.ne_nil_of_mem hj)))

/-- the shares that were proved are the same shares after one more post -/
theorem Shows.bulk_concat (hs : C.Shows posts v) (h : C.Orderly posts) :
    ∀ j ∈ v.uSet, j ∈ senders .bulkProof (posts ++ [x]) ∧ ∃ m, v.provenShares[j.toNat]? = some (some m) ∧
      ∀ r, C.rest (posts ++ [x]) = some r → ∀ d ∈ r, m.find? d = some ((C.pair d j).value • (generator : G)) := by
  intro j hj
  obtain ⟨hbulk, m, hm, hfind⟩ := hs.bulk j hj
  refine ⟨mem_senders_concat.2 (Or.inl hbulk), m, hm, fun r hr => ?_⟩
  obtain ⟨r', hr'⟩ := h.rest_of_bulk hbulk
  have hsame := h.rest_eq (List.prefix_append posts [x]) hr'
  obtain rfl : r' = r := Option.some.inj (hsame.symm.trans hr)
  exact hfind r' hr'

/-- a key that is known stays right -/
theorem Orderly.key_concat (h : C.Orderly posts) {y : Option G}
    (hkey : C.Frozen posts ∧ y = some (C.secret posts • (generator : G))) :
    C.Frozen (posts ++ [x]) ∧ y = some (C.secret (posts ++ [x]) • (generator : G)) := by
  obtain ⟨hf, rfl⟩ := hkey
  refine ⟨hf.mono (List.prefix_append _ _), ?_⟩
  rw [secret, secret, (h.stocked_of_frozen hf).chosen_eq (List.prefix_append _ _)]

theorem Shows.key_concat (hs : C.Shows posts v) (h : C.Orderly posts) (hx : x.2.opcode ≠ .bulkProof) :
    C.Frozen (posts ++ [x]) ∧ v.publicKey = some (C.secret (posts ++ [x]) • (generator : G)) ∨
      v.publicKey = none ∧ v.uSet.size < C.params.k ∧
        ∀ j ∈ senders .bulkProof (posts ++ [x]), j ∈ C.dealt (posts ++ [x]) → j ∈ v.uSet := by
  rcases hs.key with hkey | ⟨hkey, hsize, hall⟩
  · exact Or.inl (h.key_concat hkey)
  · refine Or.inr ⟨hkey, hsize, fun j hj hdealt => ?_⟩
    rw [senders_concat_of_ne hx] at hj
    rw [(h.stocked_of_bulk hj).dealt_eq (List.prefix_append _ _)] at hdealt
    exact hall j hj hdealt

/-! ## one more post -/

theorem Shows.takeContribution (hs : C.Shows posts v) (hC : C.Staffed) {c : Contribution G}
    (h : C.Orderly (posts ++ [(i, .contribution c)])) :
    ∃ v', v.step C.params i (.contribution c : Payload F G) = .ok (v', []) ∧
      C.Shows (posts ++ [(i, .contribution c)]) v' := by
  have hposts := h.of_append
  obtain ⟨hi, hfirst, hdeals⟩ := h.last
  obtain ⟨hcommitments, -, -⟩ : C.Deals i c := hdeals
  have hfirst : i ∉ senders .contribution posts := hfirst
  have hlt := lt_of_mem_honest hi
  have hfrozen : C.Frozen (posts ++ [(i, .contribution c)]) ↔ C.Frozen posts :=
    frozen_concat_of_ne (by simp [Payload.opcode])
  have hseen : v.seen[i.toNat]? = some false := by simpa [hfirst] using hs.seen i hlt
  have hkeep : View.keepCommitments C.params.k c.commitments i.toNat v.commitments =
      v.commitments.set i.toNat (some (C.start i).commitments) := by
    rw [View.keepCommitments, hcommitments, hC.proper hi]
  have htake : v.takeContribution C.params i c = .ok { v with
      seen := v.seen.set i.toNat true
      commitments := v.commitments.set i.toNat (some (C.start i).commitments) } := by
    rw [View.takeContribution_eq_ok hs.valid.commitments_eq_seen, hkeep]
    exact ⟨hseen, rfl⟩
  have hmem : ∀ d, d ∈ senders .contribution (posts ++ [(i, (.contribution c : Payload F G))]) ↔
      d ∈ senders .contribution posts ∨ d = i := fun d => by simp [mem_senders_concat, Payload.opcode]
  have hlen : i.toNat < v.seen.length := hs.valid.seen_length ▸ hlt
  have hlen' : i.toNat < v.commitments.length := hs.valid.commitments_length ▸ hlt
  refine ⟨_, View.step_contribution_eq_ok.2 ⟨htake, rfl⟩, ?_⟩
  exact {
    valid := View.valid_takeContribution hs.valid htake
    seen := fun d hd => by
      by_cases hdi : d = i
      · subst hdi
        simp [hlen, hmem]
      · have hne : i.toNat ≠ d.toNat := fun heq => hdi (UInt32.toNat_inj.1 heq.symm)
        simp [List.getElem?_set_ne hne, hs.seen d hd, hmem, hdi]
    commitments := fun d hd => by
      by_cases hdi : d = i
      · subst hdi
        simp [hlen', hmem]
      · have hne : i.toNat ≠ d.toNat := fun heq => hdi (UInt32.toNat_inj.1 heq.symm)
        simp [List.getElem?_set_ne hne, hs.commitments d hd, hmem, hdi]
    row := fun j hj => hs.row_concat hposts (by simp [Payload.opcode]) hj
    candidates := fun hf => hs.candidates fun hf' => hf (hfrozen.2 hf')
    qual := hs.qual.trans (hposts.qual_concat_of_ne (by simp [Payload.opcode])).symm
    proofSet := fun d => by
      rw [senders_concat_of_ne (by simp [Payload.opcode])]
      exact hs.proofSet d
    rSet := hs.rSet.trans (hposts.rest_concat_of_ne (by simp [Payload.opcode])).symm
    term := hs.term
    proved := fun d hd => by
      rw [senders_concat_of_ne (by simp [Payload.opcode])] at hd
      exact hs.proved d hd
    bulk := hs.bulk_concat hposts
    key := hs.key_concat hposts (by simp [Payload.opcode]) }

/-- once the rows show `posts`, a dealer that counts is endorsed by whoever announced a vector, any other by nobody -/
theorem Staffed.endorsers_eq (hC : C.Staffed) (h : C.Orderly posts) {m : StatusMatrix}
    (hlen : m.rows.length = C.params.n) (hrow : ∀ j : Index, j.toNat < C.params.n → m.row? j.toNat =
      if j ∈ senders .verification posts then some (C.vector posts) else none) (hd : d.toNat < C.params.n) :
    m.endorsers d.toNat =
      if d ∈ C.dealt posts then ((senders .verification posts).map UInt32.toNat).toFinset else ∅ := by
  have hcell : ∀ j : Index, j.toNat < C.params.n → (m.cell j.toNat d.toNat = some .success ↔
      j ∈ senders .verification posts ∧ d ∈ C.dealt posts) := by
    intro j hj
    rw [StatusMatrix.cell_eq_some, hrow j hj]
    constructor
    · rintro ⟨cells, hcells, hget⟩
      split_ifs at hcells with hposted
      obtain rfl := Option.some.inj hcells
      rw [vector_getElem hd] at hget
      exact ⟨hposted, by simpa using hget⟩
    · rintro ⟨hposted, hdealt⟩
      exact ⟨C.vector posts, by rw [if_pos hposted], by rw [vector_getElem hd, if_pos hdealt]⟩
  have hlt : ∀ j ∈ senders .verification posts, j.toNat < C.params.n := fun j hj => lt_of_mem_honest (h.honest hj)
  ext k
  rw [StatusMatrix.mem_endorsers]
  constructor
  · intro hk
    obtain ⟨cells, hcells, -⟩ := StatusMatrix.cell_eq_some.1 hk
    have hkn : k < C.params.n := hlen ▸ (List.getElem?_eq_some_iff.1 (StatusMatrix.row?_eq_some.1 hcells)).1
    have hword := hC.toNat_ofNat hkn
    rw [← hword] at hk hkn
    obtain ⟨hposted, hdealt⟩ := (hcell _ hkn).1 hk
    rw [if_pos hdealt, List.mem_toFinset, ← hword]
    exact List.mem_map_of_mem hposted
  · intro hk
    split_ifs at hk with hdealt
    · obtain ⟨j, hj, rfl⟩ := List.mem_map.1 (List.mem_toFinset.1 hk)
      exact (hcell j (hlt j hj)).2 ⟨hj, hdealt⟩
    · exact absurd hk (Finset.notMem_empty k)

/-- so it has as many successes as there are vectors, or none -/
theorem Staffed.successesFor_eq (hC : C.Staffed) (hn : C.params.n < UInt32.size) (h : C.Orderly posts)
    {m : StatusMatrix} (hlen : m.rows.length = C.params.n) (hrow : ∀ j : Index, j.toNat < C.params.n → m.row? j.toNat =
      if j ∈ senders .verification posts then some (C.vector posts) else none) (hd : d.toNat < C.params.n) :
    m.successesFor d = if d ∈ C.dealt posts then (senders .verification posts).length else 0 := by
  rw [StatusMatrix.successesFor_eq_card (hlen ▸ hn), hC.endorsers_eq h hlen hrow hd]
  split_ifs
  · exact IndexSet.card_indices (h.nodup _)
  · rfl

/-- the candidates are found all at once, when QUAL is frozen -/
theorem Staffed.nextCandidates_eq (hC : C.Staffed) (h : C.Orderly posts) {m : StatusMatrix}
    (hlen : m.rows.length = C.params.n) (hrow : ∀ j : Index, j.toNat < C.params.n → m.row? j.toNat =
      if j ∈ senders .verification posts then some (C.vector posts) else none) :
    View.nextCandidates C.params m [] = if C.Frozen posts then (C.chosen posts).elems else [] := by
  rw [View.nextCandidates_eq_foldl]
  rcases hC.le_words.eq_or_lt with hn | hn
  · -- as a word `2 ^ 32` is zero, and no dealer is looked at
    rw [hn, Index.upTo_size, List.foldl_nil, if_neg fun hf : C.Frozen posts => hf.1.ne hn]
  have hendorsed : ∀ d ∈ C.params.dealers,
      decide (C.params.k + C.params.f < m.successesFor d) = decide (d ∈ C.dealt posts ∧ C.Frozen posts) := by
    intro d hd
    rw [hC.successesFor_eq hn h hlen hrow (Params.lt_of_mem_dealers hd)]
    by_cases hdealt : d ∈ C.dealt posts <;> simp [hdealt, Frozen, hn]
  rw [Params.upTo_eq_dealers hn, View.foldl_nominate_eq C.params m hC.indices (fun _ _ => List.not_mem_nil)
    (Nat.zero_le _), List.nil_append, List.filter_congr hendorsed]
  split_ifs with hf
  · simp only [hf, and_true, hC.filter_dealt h]
    rfl
  · simp [hf]

/-- no candidates come up before QUAL is frozen -/
theorem Shows.candidates_tryQual (hs : C.Shows posts v) (hC : C.Staffed) (h : C.Orderly (posts ++ [x])) {m : StatusMatrix}
    (hlen : m.rows.length = C.params.n) (hrow : ∀ j : Index, j.toNat < C.params.n → m.row? j.toNat =
      if j ∈ senders .verification (posts ++ [x]) then some (C.vector (posts ++ [x])) else none)
    (hf : ¬ C.Frozen (posts ++ [x])) : (View.tryQual C.params { v with verdicts := m }).candidates = [] := by
  have hf' : ¬ C.Frozen posts := fun hf' => hf (hf'.mono (List.prefix_append _ _))
  rw [View.tryQual_of_none (v := { v with verdicts := m }) (hs.qual_eq_none.2 hf')]
  change View.nextCandidates C.params m v.candidates = []
  rw [hs.candidates hf', hC.nextCandidates_eq h hlen hrow, if_neg hf]

/-- QUAL after one more vector: it stays, is frozen by this vector, or is still open -/
theorem Shows.qual_tryQual (hs : C.Shows posts v) (hC : C.Staffed) (h : C.Orderly (posts ++ [x])) (hstocked : C.Stocked posts)
    {m : StatusMatrix} (hlen : m.rows.length = C.params.n) (hrow : ∀ j : Index, j.toNat < C.params.n → m.row? j.toNat =
      if j ∈ senders .verification (posts ++ [x]) then some (C.vector (posts ++ [x])) else none) :
    (View.tryQual C.params { v with verdicts := m }).qual =
      if C.Frozen (posts ++ [x]) then some (C.chosen (posts ++ [x])) else none := by
  have hprefix : posts <+: posts ++ [x] := List.prefix_append _ _
  by_cases hf : C.Frozen posts
  · have hq : v.qual = some (C.chosen posts) := by rw [hs.qual, if_pos hf]
    rw [if_pos (hf.mono hprefix), hstocked.chosen_eq hprefix]
    exact View.tryQual_qual_of_some hq
  · rw [View.tryQual_of_none (v := { v with verdicts := m }) (hs.qual_eq_none.2 hf)]
    change View.qualOf C.params (View.nextCandidates C.params m v.candidates) = _
    rw [hs.candidates hf, hC.nextCandidates_eq h hlen hrow]
    split_ifs with hf'
    · have hsize : (C.chosen (posts ++ [x])).elems.length = C.params.f + 1 :=
        h.size_chosen hC.admissible (hstocked.mono hprefix)
      rw [View.qualOf, if_neg (by omega), IndexSet.ofList_elems]
    · simp [View.qualOf]

theorem Shows.takeVerification (hs : C.Shows posts v) (hC : C.Staffed) {statuses : List (Option Status)}
    (h : C.Orderly (posts ++ [(i, .verification statuses)])) :
    ∃ v', v.step C.params i (.verification statuses : Payload F G) = .ok (v', []) ∧
      C.Shows (posts ++ [(i, .verification statuses)]) v' := by
  have hposts := h.of_append
  obtain ⟨hi, hfirst, hmeets⟩ := h.last
  obtain ⟨hstocked, rfl⟩ : C.Stocked posts ∧ statuses = C.vector posts := hmeets
  have hfirst : i ∉ senders .verification posts := hfirst
  have hlt := lt_of_mem_honest hi
  set x : Post F G := (i, .verification (C.vector posts)) with hx
  have hprefix : posts <+: posts ++ [x] := List.prefix_append _ _
  have hlen : i.toNat < v.verdicts.rows.length := hs.valid.rows_length ▸ hlt
  set m : StatusMatrix := ⟨v.verdicts.rows.set i.toNat (some (C.vector posts))⟩ with hm
  have htake : v.takeVerification C.params i (C.vector posts) = .ok (View.tryQual C.params { v with verdicts := m }) :=
    View.takeVerification_eq_ok.2 ⟨hlen, by rw [hs.row i hlt, if_neg hfirst], length_vector, rfl⟩
  have hrow : ∀ j : Index, j.toNat < C.params.n → m.row? j.toNat =
      if j ∈ senders .verification (posts ++ [x]) then some (C.vector (posts ++ [x])) else none := by
    intro j hj
    rw [StatusMatrix.row?_setRow hlen, hs.row j hj, hstocked.vector_eq hprefix]
    by_cases hji : j = i
    · simp [hji, mem_senders_concat, hx, Payload.opcode]
    · have hne : j.toNat ≠ i.toNat := fun heq => hji (UInt32.toNat_inj.1 heq)
      simp [hne, hji, mem_senders_concat, hx]
  have hmlen : m.rows.length = C.params.n := by rw [hm, List.length_set, hs.valid.rows_length]
  refine ⟨_, View.step_verification_eq_ok.2 ⟨htake, rfl⟩, ?_⟩
  exact {
    valid := View.valid_takeVerification hs.valid htake
    seen := fun d hd => by
      rw [View.tryQual_seen, senders_concat_of_ne (by simp [hx, Payload.opcode])]
      exact hs.seen d hd
    commitments := fun d hd => by
      rw [View.tryQual_commitments, senders_concat_of_ne (by simp [hx, Payload.opcode])]
      exact hs.commitments d hd
    row := fun j hj => by
      rw [View.tryQual_verdicts]
      exact hrow j hj
    candidates := hs.candidates_tryQual hC h hmlen hrow
    qual := hs.qual_tryQual hC h hstocked hmlen hrow
    proofSet := fun d => by
      rw [View.tryQual_proofSet, senders_concat_of_ne (by simp [hx, Payload.opcode])]
      exact hs.proofSet d
    rSet := by
      rw [View.tryQual_rSet, hposts.rest_concat_of_ne (by simp [hx, Payload.opcode])]
      exact hs.rSet
    term := by
      rw [View.tryQual_publicTerms]
      exact hs.term
    proved := by
      rw [View.tryQual_publicTerms, senders_concat_of_ne (by simp [hx, Payload.opcode])]
      exact hs.proved
    bulk := by
      rw [View.tryQual_uSet, View.tryQual_provenShares]
      exact hs.bulk_concat hposts
    key := by
      rw [View.tryQual_publicKey, View.tryQual_uSet]
      exact hs.key_concat hposts (by simp [hx, Payload.opcode]) }

theorem commitments_of_chosen (hs : C.Shows posts v) (h : C.Orderly posts) (hd : d ∈ C.chosen posts) :
    v.commitments[d.toNat]? = some (some (C.start d).commitments) := by
  have hposted := mem_senders_of_mem_dealt (mem_dealt_of_mem_chosen hd)
  rw [hs.commitments d (lt_of_mem_honest (h.honest hposted)), if_pos hposted]

/-- R after a proof of a member of QUAL: the first one determines it -/
theorem Shows.rSet_takeProof (hs : C.Shows posts v) (hC : C.Staffed) {π : Opening F G}
    (h : C.Orderly (posts ++ [(i, .proof π)])) :
    View.rSetAfter ((C.chosen posts).size - C.params.f) (C.chosen posts) (v.proofSet.insert i) v.rSet =
      C.rest (posts ++ [(i, .proof π)]) := by
  have hposts := h.of_append
  obtain ⟨-, -, ⟨hf, -⟩, -⟩ := h.last
  have hstocked := hposts.stocked_of_frozen hf
  have hprefix : posts <+: posts ++ [(i, (.proof π : Payload F G))] := List.prefix_append _ _
  have hquorum : (C.chosen posts).size - C.params.f = 1 := by
    rw [hposts.size_chosen hC.admissible hstocked, Nat.add_sub_cancel_left]
  rw [hs.rSet, hquorum]
  rcases hr : C.rest posts with _ | r
  · have hnil : senders .proof posts = [] := by simpa [rest] using hr
    have hfirst : senders .proof (posts ++ [(i, (.proof π : Payload F G))]) =
        senders .proof posts ++ [i] := senders_concat_of_eq rfl
    rw [hnil, List.nil_append] at hfirst
    have hempty : v.proofSet = .empty := IndexSet.ext_elems fun d => by
      rw [hs.proofSet d, hnil]
      exact ⟨fun hd => absurd hd List.not_mem_nil, fun hd => absurd hd IndexSet.not_mem_empty⟩
    have hsize : (v.proofSet.insert i).size = 1 := by
      rw [hempty]
      rfl
    rw [View.rSetAfter, if_pos ⟨rfl, hsize⟩, rest, hfirst, List.head?_cons, Option.map_some,
      hstocked.chosen_eq hprefix]
    congr 1
    refine IndexSet.ext_elems fun d => ?_
    rw [IndexSet.mem_filter, IndexSet.mem_filter]
    simp [hempty, IndexSet.not_mem_empty]
  · rw [View.rSetAfter, if_neg (by simp), hposts.rest_eq hprefix hr]

theorem Shows.takeProof (hs : C.Shows posts v) (hC : C.Staffed) {π : Opening F G}
    (h : C.Orderly (posts ++ [(i, .proof π)])) :
    ∃ v', v.step C.params i (.proof π) = .ok (v', []) ∧ C.Shows (posts ++ [(i, .proof π)]) v' := by
  have hrSet := hs.rSet_takeProof hC h
  have hposts := h.of_append
  obtain ⟨hi, hfirst, ⟨hf, hchosen⟩, hproves⟩ := h.last
  have hfirst : i ∉ senders .proof posts := hfirst
  have hlt := lt_of_mem_honest hi
  have hc := commitments_of_chosen hs hposts hchosen
  obtain ⟨c₀, hc₀⟩ := Option.isSome_iff_exists.1 (hs.valid.constant_isSome hC.admissible hc)
  have hopen : c₀ = pedersen ((C.start i).f1.eval (0 : F)) ((C.start i).f2.eval (0 : F)) := by
    rw [← eval_commitments hi, Poly.eval_zero, hc₀]
    rfl
  have hsize := hposts.size_chosen hC.admissible (hposts.stocked_of_frozen hf)
  set x : Post F G := (i, .proof π) with hx
  have hnew : i ∉ v.proofSet := fun hmem => hfirst ((hs.proofSet i).1 hmem)
  have htake : v.takeProof C.params i π = .ok { v with
      publicTerms := v.publicTerms.set i.toNat (some π.publicA)
      proofSet := v.proofSet.insert i
      rSet := View.rSetAfter ((C.chosen posts).size - C.params.f) (C.chosen posts) (v.proofSet.insert i) v.rSet } :=
    (View.takeProof_eq_ok hs.valid.publicTerms_eq_commitments).2
      ⟨C.chosen posts, _, c₀, by rw [hs.qual, if_pos hf], hchosen, hc, hnew, hc₀, hopen ▸ hproves.verify, by omega, rfl⟩
  have hlen : i.toNat < v.publicTerms.length := hs.valid.publicTerms_length ▸ hlt
  refine ⟨_, View.step_proof_eq_ok.2 ⟨htake, rfl⟩, ?_⟩
  exact {
    valid := View.valid_takeProof hs.valid htake
    seen := fun d hd => by
      rw [senders_concat_of_ne (by simp [hx, Payload.opcode])]
      exact hs.seen d hd
    commitments := fun d hd => by
      rw [senders_concat_of_ne (by simp [hx, Payload.opcode])]
      exact hs.commitments d hd
    row := fun j hj => hs.row_concat hposts (by simp [hx, Payload.opcode]) hj
    candidates := fun hf' => absurd (hf.mono (List.prefix_append _ _)) hf'
    qual := hs.qual.trans (hposts.qual_concat_of_ne (by simp [hx, Payload.opcode])).symm
    proofSet := fun d => by
      rw [IndexSet.mem_insert, hs.proofSet d, mem_senders_concat]
      simp [hx, Payload.opcode, or_comm]
    rSet := hrSet
    term := fun d y hy => by
      rw [List.getElem?_set] at hy
      split_ifs at hy with hdi
      · obtain rfl : i = d := UInt32.toNat_inj.1 hdi
        obtain rfl : π.publicA = y := by simpa using hy
        exact hproves.publicA
      · exact hs.term d y hy
    proved := fun d hd => by
      by_cases hdi : d = i
      · subst hdi
        exact ⟨_, List.getElem?_set_self hlen⟩
      · have hne : i.toNat ≠ d.toNat := fun heq => hdi (UInt32.toNat_inj.1 heq.symm)
        rw [List.getElem?_set_ne hne]
        exact hs.proved d ((mem_senders_concat.1 hd).resolve_right fun hd' => hdi hd'.1)
    bulk := hs.bulk_concat hposts
    key := hs.key_concat hposts (by simp [hx, Payload.opcode]) }

/-! ## bulk proofs -/

/-- the proofs of a bulk proof open the commitments of the members of R, evaluated for the sender -/
theorem Shows.openShares (hs : C.Shows posts v) (h : C.Orderly posts) {b : BulkProof F G} {r : IndexSet}
    (hr : C.rest posts = some r) (hkeys : b.proofs.keys = r.elems)
    (hproves : ∀ e ∈ b.proofs.entries, Proves e.2 (C.pair e.1 i).value (C.pair e.1 i).blinding) :
    View.openShares i v.commitments b.proofs.entries = .ok (b.proofs.entries.map fun e => (e.1, e.2.publicA)) := by
  refine View.openShares_eq_ok fun e he => ?_
  have hmem : e.1 ∈ r.elems := hkeys ▸ List.mem_map_of_mem he
  have hchosen := mem_chosen_of_mem_rest hr hmem
  refine ⟨_, commitments_of_chosen hs h hchosen, ?_⟩
  rw [eval_commitments (h.honest (mem_senders_of_mem_dealt (mem_dealt_of_mem_chosen hchosen)))]
  exact (hproves e he).verify

/-- the tables with the shares that an accepted bulk proof reveals -/
theorem Shows.bulk_withBulkProof (hs : C.Shows posts v) (h : C.Orderly posts) {b : BulkProof F G} {r : IndexSet}
    (hr : C.rest posts = some r) (hkeys : b.proofs.keys = r.elems) (hlt : i.toNat < C.params.n)
    (hproves : ∀ e ∈ b.proofs.entries, Proves e.2 (C.pair e.1 i).value (C.pair e.1 i).blinding) :
    let w := v.withBulkProof i (b.proofs.entries.map fun e => (e.1, e.2.publicA))
    ∀ j ∈ w.uSet, j ∈ senders .bulkProof (posts ++ [(i, (.bulkProof b : Payload F G))]) ∧
      ∃ m, w.provenShares[j.toNat]? = some (some m) ∧
        ∀ r, C.rest (posts ++ [(i, (.bulkProof b : Payload F G))]) = some r →
          ∀ d ∈ r, m.find? d = some ((C.pair d j).value • (generator : G)) := by
  intro w j hj
  have hlen : i.toNat < v.provenShares.length := hs.valid.provenShares_length ▸ hlt
  by_cases hji : j = i
  · subst hji
    refine ⟨mem_senders_concat.2 (Or.inr ⟨rfl, rfl⟩), _, List.getElem?_set_self hlen, fun r' hr' d hd => ?_⟩
    rw [h.rest_concat_of_ne (by simp [Payload.opcode]), hr] at hr'
    obtain rfl := Option.some.inj hr'
    obtain ⟨π, hπ, hfind⟩ := IndexMap.find?_of_mem_keys (m := b.proofs) (i := d) (by rw [hkeys]; exact hd)
    rw [IndexMap.ofList_map_entries Opening.publicA, IndexMap.find?_map, hfind, Option.map_some, (hproves _ hπ).publicA]
  · have hne : i.toNat ≠ j.toNat := fun heq => hji (UInt32.toNat_inj.1 heq.symm)
    obtain ⟨hposted, m, hm, hfind⟩ := hs.bulk_concat h j ((IndexSet.mem_insert.1 hj).resolve_left hji)
    exact ⟨hposted, m, (List.getElem?_set_ne hne).trans hm, hfind⟩

/-- a bulk proof touches nothing but the last four tables -/
theorem Shows.of_frame (hs : C.Shows posts v) (h : C.Orderly posts) {b : BulkProof F G} (hvalid : v'.Valid C.params)
    (hframe : v' = { v with
      publicTerms := v'.publicTerms, provenShares := v'.provenShares, uSet := v'.uSet, publicKey := v'.publicKey })
    (hterm : ∀ (d : Index) (y : G), v'.publicTerms[d.toNat]? = some (some y) →
      y = (C.start d).f1.eval (0 : F) • (generator : G))
    (hproved : ∀ d ∈ senders .proof posts, ∃ y, v'.publicTerms[d.toNat]? = some (some y))
    (hbulk : ∀ j ∈ v'.uSet, j ∈ senders .bulkProof (posts ++ [(i, (.bulkProof b : Payload F G))]) ∧
      ∃ m, v'.provenShares[j.toNat]? = some (some m) ∧
        ∀ r, C.rest (posts ++ [(i, (.bulkProof b : Payload F G))]) = some r →
          ∀ d ∈ r, m.find? d = some ((C.pair d j).value • (generator : G)))
    (hkey : C.Frozen posts ∧ v'.publicKey = some (C.secret posts • (generator : G)) ∨
      v'.publicKey = none ∧ v'.uSet.size < C.params.k ∧ ∀ j ∈ senders .bulkProof posts ∪ [i],
        j ∈ C.dealt posts → j ∈ v'.uSet) :
    C.Shows (posts ++ [(i, .bulkProof b)]) v' where
  valid := hvalid
  seen d hd := by
    rw [hframe, senders_concat_of_ne (by simp [Payload.opcode])]
    exact hs.seen d hd
  commitments d hd := by
    rw [hframe, senders_concat_of_ne (by simp [Payload.opcode])]
    exact hs.commitments d hd
  row j hj := by
    rw [hframe]
    exact hs.row_concat h (by simp [Payload.opcode]) hj
  candidates hf := by
    rw [hframe]
    exact hs.candidates fun hf' => hf (hf'.mono (List.prefix_append _ _))
  qual := by
    rw [hframe]
    exact hs.qual.trans (h.qual_concat_of_ne (by simp [Payload.opcode])).symm
  proofSet d := by
    rw [hframe, senders_concat_of_ne (by simp [Payload.opcode])]
    exact hs.proofSet d
  rSet := by
    rw [hframe]
    exact hs.rSet.trans (h.rest_concat_of_ne (by simp [Payload.opcode])).symm
  term := hterm
  proved d hd := by
    rw [senders_concat_of_ne (by simp [Payload.opcode])] at hd
    exact hproved d hd
  bulk := hbulk
  key := by
    rcases hkey with hkey | ⟨hkey, hsize, hall⟩
    · exact Or.inl (h.key_concat hkey)
    · refine Or.inr ⟨hkey, hsize, fun j hj hdealt => ?_⟩
      rw [dealt_concat_of_ne (by simp [Payload.opcode])] at hdealt
      refine hall j (List.mem_union_iff.2 ?_) hdealt
      simpa using (mem_senders_concat.1 hj).imp_right And.left

/-- the public key comes out right when the last bulk proof that is needed is put in -/
theorem Shows.reconstruct (hs : C.Shows posts v) (hC : C.Staffed)
    (hinj : Set.InjOn (xCoordinate (F := F)) {i : Index | i.toNat < C.params.n}) (h : C.Orderly posts) {r : IndexSet}
    (hr : C.rest posts = some r) {w : View G} (hw : w.Valid C.params) (hqual : w.qual = v.qual)
    (hrSet : w.rSet = v.rSet) (hterms : w.publicTerms = v.publicTerms) (hsize : w.uSet.size = C.params.k)
    (hshares : ∀ j ∈ w.uSet, ∃ m, w.provenShares[j.toNat]? = some (some m) ∧
      ∀ d ∈ r, m.find? d = some ((C.pair d j).value • (generator : G))) :
    View.reconstruct (F := F) C.params.k w = .ok ({ w with
      publicTerms := View.fillTerms (fun d => (C.start d).f1.eval (0 : F) • (generator : G)) r.elems v.publicTerms
      publicKey := some (C.secret posts • (generator : G)) }, []) := by
  have hf := h.frozen (rest_eq_some hr)
  have hlt : ∀ d ∈ C.chosen posts, d.toNat < C.params.n := fun d hd =>
    lt_of_mem_honest (h.honest (mem_senders_of_mem_dealt (mem_dealt_of_mem_chosen hd)))
  have hproved : ∀ d ∈ C.chosen posts, d ∈ r ∨
      w.publicTerms[d.toNat]? = some (some ((C.start d).f1.eval (0 : F) • (generator : G))) := by
    intro d hd
    obtain ⟨first, hfirst, rfl⟩ := Option.map_eq_some_iff.1 hr
    by_cases hdf : d = first
    · obtain ⟨y, hy⟩ := hs.proved d (hdf ▸ List.mem_of_mem_head? hfirst)
      exact Or.inr (by rw [hterms, hy, hs.term d y hy])
    · exact Or.inl (IndexSet.mem_filter.2 ⟨hd, by simpa using hdf⟩)
  have hlen : ∀ d ∈ r, (C.start d).f1.length ≤ C.params.k := fun d hd =>
    (hC.length_f1 (hlt d (mem_chosen_of_mem_rest hr hd))).le
  rw [View.reconstruct_of_values (hqual.trans (hs.qual.trans (if_pos hf))) (hrSet.trans (hs.rSet.trans hr))
    (fun d hd => hw.publicTerms_length ▸ hlt d hd) (fun d hd => mem_chosen_of_mem_rest hr hd) hshares hlen hsize.ge
    (hinj.mono fun j hj => hw.uSet_lt j hj) hproved, hterms]
  rfl

/-- a bulk proof of somebody who dealt before is accepted as long as the public key is not known -/
theorem Shows.takeBulkProof (hs : C.Shows posts v) (hC : C.Staffed)
    (hinj : Set.InjOn (xCoordinate (F := F)) {i : Index | i.toNat < C.params.n}) {b : BulkProof F G}
    (h : C.Orderly (posts ++ [(i, .bulkProof b)])) (hunknown : v.publicKey = none)
    (hposted : i ∈ senders .contribution posts) :
    ∃ v', v.step C.params i (.bulkProof b) = .ok (v', []) ∧ C.Shows (posts ++ [(i, .bulkProof b)]) v' := by
  have hposts := h.of_append
  obtain ⟨hi, hfirst, r, hr, hkeys, hproves⟩ := h.last
  have hfirst : i ∉ senders .bulkProof posts := hfirst
  have hlt := lt_of_mem_honest hi
  have hnew : i ∉ v.uSet := fun hmem => hfirst (hs.bulk i hmem).1
  obtain ⟨-, hsize, hall⟩ := hs.key.resolve_left fun hknown => by
    rw [hunknown] at hknown
    cases hknown.2
  set points := b.proofs.entries.map fun e => (e.1, e.2.publicA) with hpoints
  set w := v.withBulkProof i points with hw
  have hbulk := hs.bulk_withBulkProof hposts hr hkeys hlt hproves
  have hwvalid : w.Valid C.params := hs.valid.withBulkProof hlt points
  have hwsize : w.uSet.size = v.uSet.size + 1 := IndexSet.size_insert hnew
  have hc : v.commitments[i.toNat]? = some (some (C.start i).commitments) := by
    rw [hs.commitments i hlt, if_pos hposted]
  have htake : ∀ out, (if w.uSet.size = C.params.k then View.reconstruct (F := F) C.params.k w else .ok (w, [])) = .ok out →
      v.takeBulkProof C.params i b = .ok out := fun out hout =>
    (View.takeBulkProof_eq_ok hs.valid.provenShares_eq_commitments).2
      (Or.inr ⟨hunknown, _, r, points, hc, hs.rSet.trans hr, hkeys, hs.openShares hposts hr hkeys hproves, hnew, hout⟩)
  have hrest := hposts.rest_concat_of_ne (x := (i, (.bulkProof b : Payload F G))) (by simp [Payload.opcode])
  have hshares : ∀ j ∈ w.uSet, ∃ m, w.provenShares[j.toNat]? = some (some m) ∧
      ∀ d ∈ r, m.find? d = some ((C.pair d j).value • (generator : G)) := by
    intro j hj
    obtain ⟨-, m, hm, hfind⟩ := hbulk j hj
    exact ⟨m, hm, hfind r (hrest.trans hr)⟩
  by_cases hk : w.uSet.size = C.params.k
  · have htake := htake _ ((if_pos hk).trans (hs.reconstruct hC hinj hposts hr hwvalid rfl rfl rfl hk hshares))
    refine ⟨_, htake, hs.of_frame hposts (View.valid_takeBulkProof hs.valid htake) rfl (fun d y hy => ?_)
      (fun d hd => ?_) hbulk (Or.inl ⟨hposts.frozen (rest_eq_some hr), rfl⟩)⟩
    · rcases View.of_getElem?_fillTerms hy with hy | ⟨e, -, he, rfl⟩
      · exact hs.term d y hy
      · rw [UInt32.toNat_inj.1 he]
    · obtain ⟨y, hy⟩ := hs.proved d hd
      have hterm := hs.term d y hy
      exact ⟨_, View.getElem?_fillTerms (List.getElem?_eq_some_iff.1 hy).1 (Or.inr (hterm ▸ hy))⟩
  · refine ⟨_, htake _ (if_neg hk), hs.of_frame hposts hwvalid rfl hs.term hs.proved hbulk (Or.inr ⟨hunknown, by omega, ?_⟩)⟩
    intro j hj hdealt
    rcases List.mem_union_iff.1 hj with hj | hj
    · exact IndexSet.mem_insert.2 (Or.inr (hall j hj hdealt))
    · exact IndexSet.mem_insert.2 (Or.inl (List.mem_singleton.1 hj))

/-! ## orderly logs -/

/-- what the protocol asks for can be written -/
theorem Orderly.fits (hC : C.Staffed) {y : Payload F G} (h : C.Orderly (posts ++ [(i, y)])) : y.Fits := by
  have hn : C.params.n < 2 ^ 64 := lt_of_le_of_lt hC.le_words (by decide)
  obtain ⟨-, -, hmeets⟩ := h.last
  cases y with
  | contribution c => exact hmeets.fits
  | verification statuses =>
    obtain ⟨-, rfl⟩ := hmeets
    rw [Payload.Fits, length_vector]
    exact hn
  | rebuttal b => trivial
  | proof π => trivial
  | bulkProof b => exact Payload.fits_bulkProof b

/-- everything but a bulk proof is taken in -/
theorem Shows.takes (hs : C.Shows posts v) (hC : C.Staffed) (ho : C.Orderly (posts ++ [x]))
    (hx : x.2.opcode ≠ .bulkProof) :
    ∃ v', v.step C.params x.1 x.2 = .ok (v', []) ∧ C.Shows (posts ++ [x]) v' := by
  obtain ⟨i, y⟩ := x
  cases y with
  | contribution c => exact hs.takeContribution hC ho
  | verification statuses => exact hs.takeVerification hC ho
  | rebuttal b => exact ho.last.2.2.elim
  | proof π => exact hs.takeProof hC ho
  | bulkProof b => exact absurd rfl hx

omit [Wire F] in
/-- a bulk proof of somebody who has not dealt is refused while the public key is unknown -/
theorem Shows.refuses_bulkProof (hs : C.Shows posts v) (hi : i.toNat < C.params.n) (hunknown : v.publicKey = none)
    (hnot : i ∉ senders .contribution posts) (b : BulkProof F G) : v.step C.params i (.bulkProof b) =
      .error (.refused (.stateViolation "commitments of the sender are unknown")) := by
  have hentry : entry v.commitments i = .ok none := by
    rw [entry_eq_ok, hs.commitments i hi, if_neg hnot]
  simp [View.step, View.takeBulkProof, hunknown, hentry, require, refuse, bind, Except.bind]

variable [LawfulWire F] [LawfulWire G]

theorem Orderly.payload_seal (hC : C.Staffed) (h : C.Orderly (posts ++ [x])) :
    (x.seal.payload : Except Violation (Payload F G)) = .ok x.2 :=
  Payload.payload_toEnvelope (Orderly.fits hC (i := x.1) (y := x.2) h) x.1

/-- **One more post of an orderly log.** -/
theorem Shows.after (hs : C.Shows posts v) (hC : C.Staffed)
    (hinj : Set.InjOn (xCoordinate (F := F)) {i : Index | i.toNat < C.params.n}) (h : C.Orderly (posts ++ [x])) :
    C.Shows (posts ++ [x]) (v.after C.params x.seal) := by
  have hpayload := h.payload_seal hC
  have hlt : x.seal.sender.toNat < C.params.n := lt_of_mem_honest h.last.1
  by_cases hx : x.2.opcode = .bulkProof
  · obtain ⟨i, y⟩ := x
    obtain ⟨b, rfl⟩ := Payload.exists_bulkProof hx
    by_cases htaken : v.publicKey = none ∧ i ∈ senders .contribution posts
    · obtain ⟨v', hstep, hs'⟩ := hs.takeBulkProof hC hinj h htaken.1 htaken.2
      rwa [View.after_of_step hpayload hlt hstep]
    · -- nothing is taken in: the key is known, or the sender has not dealt
      have hsame : v.after C.params (Post.seal (i, .bulkProof b)) = v := by
        by_cases hknown : v.publicKey.isSome
        · exact View.after_of_step hpayload hlt (View.step_bulkProof_of_known hknown)
        · have hunknown : v.publicKey = none := by simpa using hknown
          have hnot : i ∉ senders .contribution posts := fun hposted => htaken ⟨hunknown, hposted⟩
          exact View.after_of_refused hpayload (hs.refuses_bulkProof hlt hunknown hnot b)
      rw [hsame]
      refine hs.of_frame h.of_append hs.valid rfl hs.term hs.proved (hs.bulk_concat h.of_append) ?_
      rcases hs.key with hkey | ⟨hunknown, hsize, hall⟩
      · exact Or.inl hkey
      · refine Or.inr ⟨hunknown, hsize, fun j hj hdealt => ?_⟩
        rcases List.mem_union_iff.1 hj with hj | hj
        · exact hall j hj hdealt
        · obtain rfl := List.mem_singleton.1 hj
          exact absurd ⟨hunknown, mem_senders_of_mem_dealt hdealt⟩ htaken
  · obtain ⟨v', hstep, hs'⟩ := hs.takes hC h hx
    rwa [View.after_of_step hpayload hlt hstep]

end Cast

end DistributedKey
