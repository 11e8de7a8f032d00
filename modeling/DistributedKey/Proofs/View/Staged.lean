/-
The stages by which a view comes to the public key.

`Staged v` ties the fields that lead to the key together: who proved its constant term is in QUAL and its term is there,
R is QUAL without the first of them, and U are the senders whose shares of the members of R are stored.

- `staged_initial`, `staged_step`, `staged_ofLog`: the stages hold at the start and after every log.
- `Accepts`: a bulk proof is put in. `key_cases`: any other message leaves U, the shares and the key as they are.
- `Counted p v`: the key is there exactly if U has `k` members. `counted_step`: over a field, a staged view stays counted,
  and nothing is to be noticed, so no reconstruction fails (`counted_ofLog`).
-/
import DistributedKey.Proofs.View.Log
import DistributedKey.Proofs.View.Reconstruct

namespace DistributedKey.View

open Checked

variable {F G : Type} {p : Params} {v v' : View G} {j : Index} {notices : List Notice}

/-- the shares of a sender put in, and the sender with them -/
def withShares (v : View G) (j : Index) (m : IndexMap G) : View G :=
  { v with
    provenShares := v.provenShares.set j.toNat (some m)
    uSet := v.uSet.insert j }

/-- the order of events before the public key -/
structure Staged (v : View G) : Prop where
  proved : ∀ d ∈ v.proofSet, (∃ q, v.qual = some q ∧ d ∈ q) ∧ ∃ y, v.publicTerms[d.toNat]? = some (some y)
  unproved : v.rSet = none → v.proofSet = .empty
  outside : ∀ r, v.rSet = some r → ∃ q d, v.qual = some q ∧ d ∈ q ∧ d ∈ v.proofSet ∧ q.filter (· ≠ d) = r
  shares : ∀ j ∈ v.uSet, ∃ r m, v.rSet = some r ∧ v.provenShares[j.toNat]? = some (some m) ∧ m.keys = r.elems
  senders : ∀ (j : Nat) (m : IndexMap G), v.provenShares[j]? = some (some m) → ∃ i ∈ v.uSet, i.toNat = j

theorem staged_initial (n : Nat) : Staged (initial n : View G) where
  proved d hd := absurd hd IndexSet.not_mem_empty
  unproved _ := rfl
  outside r hr := by cases hr
  shares j hj := absurd hj IndexSet.not_mem_empty
  senders j m hm := by simp [initial, List.getElem?_replicate] at hm

/-- the stages stay where QUAL and the constant terms are at most added to -/
theorem Staged.of_frame (h : Staged v) (hqual : ∀ q, v.qual = some q → v'.qual = some q)
    (hterms : ∀ (d : Nat) (y : G), v.publicTerms[d]? = some (some y) → ∃ y', v'.publicTerms[d]? = some (some y'))
    (hproofSet : v'.proofSet = v.proofSet) (hrSet : v'.rSet = v.rSet) (huSet : v'.uSet = v.uSet)
    (hshares : v'.provenShares = v.provenShares) : Staged v' where
  proved d hd := by
    obtain ⟨⟨q, hq, hmem⟩, y, hy⟩ := h.proved d (hproofSet ▸ hd)
    exact ⟨⟨q, hqual q hq, hmem⟩, hterms _ y hy⟩
  unproved hr := hproofSet.trans (h.unproved (hrSet.symm.trans hr))
  outside r hr := by
    obtain ⟨q, d, hq, hmem, hproved, hfilter⟩ := h.outside r (hrSet.symm.trans hr)
    exact ⟨q, d, hqual q hq, hmem, hproofSet ▸ hproved, hfilter⟩
  shares i hi := by
    rw [hrSet, hshares]
    exact h.shares i (huSet ▸ hi)
  senders i m hm := by
    rw [huSet]
    exact h.senders i m (hshares ▸ hm)

/-! ## proofs of constant terms -/

theorem rSetAfter_of_some {quorum : Nat} {q proofSet r : IndexSet} : rSetAfter quorum q proofSet (some r) = some r := by
  simp [rSetAfter]

/-- the first proof freezes R, with its sender outside -/
theorem rSetAfter_first {quorum : Nat} {q : IndexSet} (hquorum : quorum = 1) :
    rSetAfter quorum q (IndexSet.empty.insert j) none = some (q.filter (· ≠ j)) := by
  have hsize : (IndexSet.empty.insert j).size = quorum := by
    rw [IndexSet.size_insert IndexSet.not_mem_empty, hquorum]
    rfl
  have hfilter : q.filter (· ∉ IndexSet.empty.insert j) = q.filter (· ≠ j) :=
    IndexSet.ext_elems fun i => by simp [IndexSet.not_mem_empty]
  rw [rSetAfter, if_pos ⟨rfl, hsize⟩, hfilter]

section

variable [Suite F G] [Wire G] [Zero G] [Add G] [SMul F G] [DecidableEq F] [DecidableEq G]

theorem staged_takeProof {π : Opening F G} (hv : Valid p v) (h : Staged v) (hok : v.takeProof p j π = .ok v') :
    Staged v' := by
  rw [takeProof_eq_ok hv.publicTerms_eq_commitments] at hok
  obtain ⟨q, c, c₀, hq, hmem, hc, -, -, -, -, rfl⟩ := hok
  have hlt : j.toNat < v.publicTerms.length := by
    rw [hv.publicTerms_eq_commitments]
    exact (List.getElem?_eq_some_iff.1 hc).1
  have hquorum : q.size - p.f = 1 := by
    rw [hv.qual_size hq]
    omega
  have hr : (∃ r, v.rSet = some r ∧ rSetAfter (q.size - p.f) q (v.proofSet.insert j) v.rSet = some r) ∨
      v.rSet = none ∧ rSetAfter (q.size - p.f) q (v.proofSet.insert j) v.rSet = some (q.filter (· ≠ j)) := by
    rcases Option.eq_none_or_eq_some v.rSet with hnone | ⟨r, hsome⟩
    · rw [hnone, h.unproved hnone]
      exact Or.inr ⟨rfl, rSetAfter_first hquorum⟩
    · rw [hsome]
      exact Or.inl ⟨r, rfl, rSetAfter_of_some⟩
  refine ⟨fun d hd => ?_, fun hnone => ?_, fun r hsome => ?_, fun i hi => ?_, h.senders⟩
  · rcases IndexSet.mem_insert.1 hd with rfl | hd
    · exact ⟨⟨q, hq, hmem⟩, _, List.getElem?_set_self hlt⟩
    · obtain ⟨hqual, y, hy⟩ := h.proved d hd
      refine ⟨hqual, ?_⟩
      dsimp only
      rw [List.getElem?_set]
      split_ifs
      · exact ⟨_, rfl⟩
      · exact ⟨y, hy⟩
  · rcases hr with ⟨r, -, hafter⟩ | ⟨-, hafter⟩ <;> exact absurd (hafter.symm.trans hnone) (by simp)
  · rcases hr with ⟨r', hbefore, hafter⟩ | ⟨-, hafter⟩
    · obtain rfl := Option.some.inj (hafter.symm.trans hsome)
      obtain ⟨q', d, hq', hd, hproved, hfilter⟩ := h.outside r' hbefore
      exact ⟨q', d, hq', hd, IndexSet.mem_insert.2 (Or.inr hproved), hfilter⟩
    · obtain rfl := Option.some.inj (hafter.symm.trans hsome)
      exact ⟨q, j, hq, hmem, IndexSet.mem_insert.2 (Or.inl rfl), rfl⟩
  · obtain ⟨r, m, hbefore, hm, hkeys⟩ := h.shares i hi
    refine ⟨r, m, ?_, hm, hkeys⟩
    dsimp only
    rw [hbefore]
    exact rSetAfter_of_some

end

/-! ## bulk proofs -/

section

variable [Suite F G] [Zero G] [DecidableEq G]

theorem Valid.withShares (h : Valid p v) (hj : j.toNat < p.n) (m : IndexMap G) : Valid p (v.withShares j m) := by
  have hvalid := h.withBulkProof hj m.entries
  rwa [View.withBulkProof, IndexMap.ofList_entries] at hvalid

end

theorem Staged.withShares (h : Staged v) {r : IndexSet} {m : IndexMap G} (hr : v.rSet = some r)
    (hkeys : m.keys = r.elems) (hj : j.toNat < v.provenShares.length) : Staged (v.withShares j m) where
  proved := h.proved
  unproved := h.unproved
  outside := h.outside
  shares i hi := by
    by_cases hij : i = j
    · subst hij
      exact ⟨r, m, hr, List.getElem?_set_self hj, hkeys⟩
    · have hne : j.toNat ≠ i.toNat := fun heq => hij (UInt32.toNat_inj.1 heq.symm)
      obtain ⟨r', m', hr', hm', hkeys'⟩ := h.shares i ((IndexSet.mem_insert.1 hi).resolve_left hij)
      exact ⟨r', m', hr', (List.getElem?_set_ne hne).trans hm', hkeys'⟩
  senders i m' hm' := by
    by_cases hij : j.toNat = i
    · exact ⟨j, IndexSet.mem_insert.2 (Or.inl rfl), hij⟩
    · obtain ⟨i', hi', rfl⟩ := h.senders i m' ((List.getElem?_set_ne hij).symm.trans hm')
      exact ⟨i', IndexSet.mem_insert.2 (Or.inr hi'), rfl⟩

section

variable [Add G] [SMul F G] [DecidableEq F] [DecidableEq G] [NatCast F] [Zero G] [Sub F] [Mul F] [Zero F] [One F]
  [Inv F]

omit [DecidableEq G] in
/-- a constant term that is there is not lost by interpolation -/
theorem interpolateTerms_present {k d : Nat} {l : List Index} {y : G}
    (h : interpolateTerms (F := F) k v l = .ok (v', notices)) (hy : v.publicTerms[d]? = some (some y)) :
    ∃ y', v'.publicTerms[d]? = some (some y') := by
  induction l generalizing v y with
  | nil =>
    simp only [interpolateTerms, pure_eq_ok, Prod.mk.injEq] at h
    obtain ⟨rfl, -⟩ := h
    exact ⟨y, hy⟩
  | cons e l ih =>
    simp only [interpolateTerms, bind_eq_ok] at h
    obtain ⟨shares, -, h⟩ := h
    split at h
    · simp only [bind_eq_ok, replace_eq_ok] at h
      obtain ⟨_, ⟨hlt, rfl⟩, h⟩ := h
      by_cases hd : e.toNat = d
      · subst hd
        exact ih h (List.getElem?_set_self hlt)
      · exact ih h ((List.getElem?_set_ne hd).trans hy)
    · simp only [pure_eq_ok, Prod.mk.injEq] at h
      obtain ⟨rfl, -⟩ := h
      exact ⟨y, hy⟩

omit [DecidableEq G] in
theorem reconstruct_present {k d : Nat} {y : G} (h : reconstruct (F := F) k v = .ok (v', notices))
    (hy : v.publicTerms[d]? = some (some y)) : ∃ y', v'.publicTerms[d]? = some (some y') := by
  unfold reconstruct at h
  split at h
  · simp only [bind_eq_ok, Prod.exists] at h
    obtain ⟨w, ns, hinterpolate, h⟩ := h
    have hpresent := interpolateTerms_present hinterpolate hy
    split_ifs at h
    · simp only [pure_eq_ok, Prod.mk.injEq] at h
      obtain ⟨rfl, -⟩ := h
      exact hpresent
    · simp only [bind_eq_ok] at h
      obtain ⟨sum, -, h⟩ := h
      split at h <;> simp only [pure_eq_ok, Prod.mk.injEq] at h <;> obtain ⟨rfl, -⟩ := h <;> exact hpresent
  · simp only [pure_eq_ok, Prod.mk.injEq] at h
    obtain ⟨rfl, -⟩ := h
    exact ⟨y, hy⟩

omit [DecidableEq G] in
theorem Staged.reconstruct {k : Nat} (h : Staged v) (hok : reconstruct (F := F) k v = .ok (v', notices)) :
    Staged v' := by
  have hpresent : ∀ (d : Nat) (y : G), v.publicTerms[d]? = some (some y) → ∃ y', v'.publicTerms[d]? = some (some y') :=
    fun _ _ hy => reconstruct_present hok hy
  obtain ⟨-, hframe⟩ := reconstruct_frame hok
  refine h.of_frame (fun q hq => ?_) hpresent ?_ ?_ ?_ ?_
  · rwa [hframe]
  all_goals rw [hframe]

variable [Suite F G] [Wire G]

/-- a bulk proof over R is put in, and the key is reconstructed if it is the `k`-th -/
structure Accepts (p : Params) (v : View G) (j : Index) (b : BulkProof F G) (v' : View G) (notices : List Notice) :
    Prop where
  unknown : v.publicKey = none
  new : j ∉ v.uSet
  sender : j.toNat < p.n
  frozen : ∃ r, v.rSet = some r ∧ b.proofs.keys = r.elems
  put : (v.uSet.insert j).size = p.k ∧
      View.reconstruct (F := F) p.k (v.withShares j (b.proofs.map Opening.publicA)) = .ok (v', notices) ∨
    (v.uSet.insert j).size ≠ p.k ∧ v' = v.withShares j (b.proofs.map Opening.publicA) ∧ notices = []

/-- a bulk proof is ignored once the key is known, and accepted before -/
theorem takeBulkProof_cases {b : BulkProof F G} (h : Valid p v) (hok : v.takeBulkProof p j b = .ok (v', notices)) :
    v.publicKey.isSome ∧ v' = v ∧ notices = [] ∨ Accepts p v j b v' notices := by
  rw [takeBulkProof_eq_ok h.provenShares_eq_commitments] at hok
  rcases hok with ⟨hkey, hv⟩ | ⟨hkey, c, r, points, hc, hr, hkeys, hopen, hnot, hv⟩
  · cases hv
    exact Or.inl ⟨hkey, rfl, rfl⟩
  · have hj : j.toNat < p.n := h.commitments_length ▸ (List.getElem?_eq_some_iff.1 hc).1
    have htable : v.withBulkProof j points = v.withShares j (b.proofs.map Opening.publicA) := by
      rw [withBulkProof, of_openShares_eq_ok hopen, IndexMap.ofList_map_entries Opening.publicA, View.withShares]
    rw [htable] at hv
    refine Or.inr ⟨hkey, hnot, hj, ⟨r, hr, hkeys⟩, ?_⟩
    split_ifs at hv with hsize
    · exact Or.inl ⟨hsize, hv⟩
    · obtain ⟨hv, hnotices⟩ := Prod.mk.inj (Except.ok.inj hv)
      exact Or.inr ⟨hsize, hv.symm, hnotices.symm⟩

variable {b : BulkProof F G}

omit [Wire G] in
theorem Accepts.staged_withShares (h : Accepts p v j b v' notices) (hv : Valid p v) (hs : Staged v) :
    Staged (v.withShares j (b.proofs.map Opening.publicA)) := by
  obtain ⟨r, hr, hkeys⟩ := h.frozen
  exact hs.withShares hr ((IndexMap.keys_map _ _).trans hkeys) (hv.provenShares_length ▸ h.sender)

omit [Wire G] in
theorem Accepts.staged (h : Accepts p v j b v' notices) (hv : Valid p v) (hs : Staged v) : Staged v' := by
  have hput := h.staged_withShares hv hs
  rcases h.put with ⟨-, hreconstruct⟩ | ⟨-, rfl, -⟩
  · exact hput.reconstruct hreconstruct
  · exact hput

omit [DecidableEq G] [Suite F G] [Wire G] in
/-- accepting a bulk proof puts its sender and shares in, whether or not the key comes out -/
theorem Accepts.frame (h : Accepts p v j b v' notices) : v'.uSet = v.uSet.insert j ∧
    v'.provenShares = v.provenShares.set j.toNat (some (b.proofs.map Opening.publicA)) := by
  rcases h.put with ⟨-, hreconstruct⟩ | ⟨-, rfl, -⟩
  · obtain ⟨-, hframe⟩ := reconstruct_frame hreconstruct
    rw [hframe]
    exact ⟨rfl, rfl⟩
  · exact ⟨rfl, rfl⟩

omit [DecidableEq G] [Suite F G] [Wire G] in
theorem Accepts.size (h : Accepts p v j b v' notices) : v'.uSet.size = v.uSet.size + 1 := by
  rw [h.frame.1, IndexSet.size_insert h.new]

/-! ## one message, and a log -/

/-- **The stages are kept by every accepted message.** -/
theorem staged_step {payload : Payload F G} (hv : Valid p v) (h : Staged v)
    (hok : v.step p j payload = .ok (v', notices)) : Staged v' := by
  cases payload with
  | contribution _ | verification _ | rebuttal _ =>
    obtain ⟨hterms, hproofSet, hrSet, hshares, huSet, -, -⟩ :=
      step_early_frame hv hok (by simp [Payload.opcode]) (by simp [Payload.opcode])
    exact h.of_frame (settles_step hv hok).qual (fun _ y hy => ⟨y, by rw [hterms, hy]⟩) hproofSet hrSet huSet hshares
  | proof π =>
    obtain ⟨hw, -⟩ := step_proof_eq_ok.1 hok
    exact staged_takeProof hv h hw
  | bulkProof b =>
    rcases takeBulkProof_cases hv hok with ⟨-, rfl, -⟩ | haccepts
    · exact h
    · exact haccepts.staged hv h

/-- what there is of the key changes only by a bulk proof that is accepted -/
theorem key_cases {payload : Payload F G} (h : Valid p v) (hok : v.step p j payload = .ok (v', notices)) :
    (v'.uSet = v.uSet ∧ v'.provenShares = v.provenShares ∧ v'.publicKey = v.publicKey ∧ notices = []) ∨
      ∃ b, payload = .bulkProof b ∧ Accepts p v j b v' notices := by
  by_cases hkind : payload.opcode = .bulkProof
  · obtain ⟨b, rfl⟩ := Payload.exists_bulkProof hkind
    rcases takeBulkProof_cases h hok with ⟨-, rfl, hnotices⟩ | haccepts
    · exact Or.inl ⟨rfl, rfl, rfl, hnotices⟩
    · exact Or.inr ⟨b, rfl, haccepts⟩
  · exact Or.inl (step_key_frame h hok hkind)

variable [Wire F]

theorem Staged.after (h : Staged v) (hv : Valid p v) (e : Envelope) : Staged (v.after p e) := by
  rcases after_cases p v e with hsame | ⟨payload, notices, -, -, hstep⟩
  · rwa [hsame]
  · exact staged_step hv h hstep

theorem staged_ofLog (p : Params) (log : List Envelope) : Staged (ofLog p log : View G) := by
  induction log using List.reverseRecOn with
  | nil => exact staged_initial p.n
  | append_singleton log e ih =>
    rw [ofLog_concat]
    exact ih.after (valid_ofLog p log) e

end

/-! ## the count -/

/-- the key is there from the `k`-th accepted bulk proof on -/
structure Counted (p : Params) (v : View G) : Prop where
  known : v.publicKey.isSome → v.uSet.size = p.k
  unknown : v.publicKey = none → v.uSet.size < p.k

theorem counted_initial (hp : p.Admissible) : Counted p (initial p.n : View G) where
  known h := by cases h
  unknown _ := Nat.zero_lt_of_lt hp.faults_lt

theorem Counted.size_le (h : Counted p v) : v.uSet.size ≤ p.k := by
  cases hkey : v.publicKey with
  | none => exact (h.unknown hkey).le
  | some y => exact (h.known (hkey ▸ rfl)).le

theorem Counted.isSome_iff (h : Counted p v) : v.publicKey.isSome ↔ v.uSet.size = p.k := by
  refine ⟨h.known, fun hsize => ?_⟩
  by_contra hkey
  have hlt := h.unknown (Option.not_isSome_iff_eq_none.1 hkey)
  omega

/-- a key is there for a frozen QUAL and a frozen R only -/
theorem Counted.frozen (h : Counted p v) (hp : p.Admissible) (hs : Staged v) (hkey : v.publicKey.isSome) :
    ∃ q r, v.qual = some q ∧ v.rSet = some r := by
  have hsize : v.uSet.elems.length = p.k := h.known hkey
  have hk : 0 < p.k := Nat.zero_lt_of_lt hp.faults_lt
  obtain ⟨j, hj⟩ := List.exists_mem_of_length_pos (l := v.uSet.elems) (by omega)
  obtain ⟨r, -, hr, -⟩ := hs.shares j hj
  obtain ⟨q, -, hq, -⟩ := hs.outside r hr
  exact ⟨q, r, hq, hr⟩

/-- with R frozen, each member of QUAL is in R or has proved its constant term -/
theorem Staged.covers [Suite F G] [Zero G] [DecidableEq G] (h : Staged v) (hv : Valid p v) {r : IndexSet}
    (hr : v.rSet = some r) : ∃ q, v.qual = some q ∧ (∀ d ∈ q, d.toNat < v.publicTerms.length) ∧ (∀ d ∈ r, d ∈ q) ∧
      ∀ d ∈ q, d ∈ r ∨ d ∈ v.proofSet := by
  obtain ⟨q, d, hq, -, hproved, rfl⟩ := h.outside r hr
  refine ⟨q, hq, fun e he => ?_, fun e he => (IndexSet.mem_filter.1 he).1, fun e he => ?_⟩
  · rw [hv.publicTerms_length]
    exact (hv.qual_endorsed hq he).1
  · by_cases hne : e = d
    · exact Or.inr (hne ▸ hproved)
    · exact Or.inl (IndexSet.mem_filter.2 ⟨he, by simpa using hne⟩)

section

variable [Field F] [AddCommGroup G] [Module F G] [Suite F G] [DecidableEq F] [DecidableEq G]

/-- **A reconstruction never fails.** Whatever the terms and shares are, those of a staged view make up a key. -/
theorem Staged.exists_reconstruct (h : Staged v) (hv : Valid p v)
    (hinj : Set.InjOn (xCoordinate (F := F)) {i : Index | i.toNat < p.n}) {r : IndexSet} (hr : v.rSet = some r) {k : Nat}
    (hk : k ≤ v.uSet.size) : ∃ y w, View.reconstruct (F := F) k v = .ok (w, []) ∧ w.publicKey = some y := by
  obtain ⟨q, hq, hlt, hsub, hcovers⟩ := h.covers hv hr
  have hshares : ∀ j ∈ v.uSet, ∃ m, v.provenShares[j.toNat]? = some (some m) ∧ m.keys = r.elems := by
    intro j hj
    obtain ⟨r', m, hr', hm, hkeys⟩ := h.shares j hj
    obtain rfl := Option.some.inj (hr.symm.trans hr')
    exact ⟨m, hm, hkeys⟩
  obtain ⟨term, hterm⟩ := View.exists_reconstruct hq hr hlt hsub hshares hk (hinj.mono hv.uSet_lt) fun d hd =>
    (hcovers d hd).imp_right fun hproved => (h.proved d hproved).2
  exact ⟨_, _, hterm, rfl⟩

variable [Wire G]

/-- **The key comes with the `k`-th accepted bulk proof**, and no step has anything to report. -/
theorem counted_step {payload : Payload F G} (hinj : Set.InjOn (xCoordinate (F := F)) {i : Index | i.toNat < p.n})
    (hv : Valid p v) (hs : Staged v) (h : Counted p v) (hok : v.step p j payload = .ok (v', notices)) :
    Counted p v' ∧ notices = [] := by
  rcases key_cases hv hok with ⟨huSet, -, hkey, hnotices⟩ | ⟨b, -, haccepts⟩
  · refine ⟨⟨fun hsome => ?_, fun hnone => ?_⟩, hnotices⟩
    · rw [huSet]
      exact h.known (hkey ▸ hsome)
    · rw [huSet]
      exact h.unknown (hkey ▸ hnone)
  · have hsize := haccepts.size
    have hlt := h.unknown haccepts.unknown
    rcases haccepts.put with ⟨hfull, hreconstruct⟩ | ⟨hroom, rfl, hnotices⟩
    · obtain ⟨r, hr, -⟩ := haccepts.frozen
      obtain ⟨y, w, hw, hy⟩ := (haccepts.staged_withShares hv hs).exists_reconstruct (hv.withShares haccepts.sender _)
        hinj hr hfull.ge
      obtain ⟨rfl, rfl⟩ := Prod.mk.inj (Except.ok.inj (hw.symm.trans hreconstruct))
      refine ⟨⟨fun _ => ?_, fun hnone => ?_⟩, rfl⟩
      · rw [haccepts.frame.1, hfull]
      · rw [hy] at hnone
        cases hnone
    · refine ⟨⟨fun hsome => ?_, fun _ => ?_⟩, hnotices⟩
      · have hnone : (v.withShares j (b.proofs.map Opening.publicA)).publicKey = none := haccepts.unknown
        rw [hnone] at hsome
        cases hsome
      · have hne : (v.withShares j (b.proofs.map Opening.publicA)).uSet.size ≠ p.k := hroom
        omega

variable [Wire F]

theorem Counted.after (hinj : Set.InjOn (xCoordinate (F := F)) {i : Index | i.toNat < p.n}) (hv : Valid p v)
    (hs : Staged v) (h : Counted p v) (e : Envelope) : Counted p (v.after p e) := by
  rcases after_cases p v e with hsame | ⟨payload, notices, -, -, hstep⟩
  · rwa [hsame]
  · exact (counted_step hinj hv hs h hstep).1

theorem counted_ofLog (hinj : Set.InjOn (xCoordinate (F := F)) {i : Index | i.toNat < p.n}) (hp : p.Admissible)
    (log : List Envelope) : Counted p (ofLog p log : View G) := by
  induction log using List.reverseRecOn with
  | nil => exact counted_initial hp
  | append_singleton log e ih =>
    rw [ofLog_concat]
    exact ih.after hinj (valid_ofLog p log) (staged_ofLog p log) e

/-- an entry after which the key is there for the first time is the `k`-th accepted bulk proof, and the other way round -/
theorem Counted.key_after_iff (hinj : Set.InjOn (xCoordinate (F := F)) {i : Index | i.toNat < p.n}) (hv : Valid p v)
    (hs : Staged v) (h : Counted p v) (e : Envelope) : v.publicKey = none ∧ (v.after p e).publicKey.isSome ↔
      ∃ b : BulkProof F G, e.payload = .ok (.bulkProof b) ∧ e.sender ∉ v.uSet ∧
        (v.after p e).uSet = v.uSet.insert e.sender ∧ (v.after p e).uSet.size = p.k := by
  have hafter := h.after hinj hv hs e
  constructor
  · rintro ⟨hnone, hsome⟩
    have hsize := hafter.known hsome
    rcases after_cases p v e with hsame | ⟨payload, notices, hpayload, -, hstep⟩
    · rw [hsame, hnone] at hsome
      cases hsome
    · rcases key_cases hv hstep with ⟨-, -, hkey, -⟩ | ⟨b, rfl, haccepts⟩
      · rw [hkey, hnone] at hsome
        cases hsome
      · exact ⟨b, hpayload, haccepts.new, haccepts.frame.1, hsize⟩
  · rintro ⟨b, -, hnew, huSet, hsize⟩
    refine ⟨Option.not_isSome_iff_eq_none.1 fun hsome => ?_, hafter.isSome_iff.2 hsize⟩
    have hfull := h.known hsome
    rw [huSet, IndexSet.size_insert hnew] at hsize
    omega

end

end DistributedKey.View
