/-
Recoverability: every member of QUAL has dealt to more than `k` shareholders that follow the protocol.

A log is `Authentic` for the shareholders that follow the protocol if each of them posts only what it returned, having
read some of what stands before. The others, at most `f`, post anything under their own index.

A vote for a dealer is a cell of a row that says success. A shareholder's row is the vector it announced, and a cell of
it is turned by a rebuttal, which the shareholder reads as well. Either way it holds a share of the dealer
(`History.holds_of_vote`). More than `k + f` votes are needed for QUAL, so more than `k` are of these shareholders.
-/
import DistributedKey.Proofs.Announcement
import DistributedKey.Proofs.Silent.Rest
import DistributedKey.Proofs.Silent.Uniform

namespace DistributedKey

open Checked

variable {F G : Type}
variable [Suite F G] [NatCast F] [Zero F] [One F] [Add F] [Sub F] [Mul F] [Inv F] [SMul F F] [Zero G] [Add G]
  [SMul F G] [Wire F] [Wire G] [Sampled F] [DecidableEq F] [DecidableEq G]

/-! ## votes -/

variable {p : Params} {members : List (Shareholder F G)} {log read : List Envelope} {s₀ t : Shareholder F G}
  {out : List (Payload F G)}

/-- **A vote is backed by a share**: whoever has a row in which a dealer is a success judges it a success itself. -/
theorem History.holds_of_vote (hlog : Authentic members log) (hs₀ : s₀ ∈ members) (h₀ : s₀.Fresh)
    (hn : s₀.params.n < 2 ^ 64) (ht : History s₀ read t out) (hread : read <+: log) {d : Nat}
    (hvote : t.view.verdicts.cell s₀.index.toNat d = some .success) :
    t.ownStatuses[d]? = some (some .success) := by
  induction ht with
  | start =>
    rw [h₀.view] at hvote
    simp [View.initial, StatusMatrix.empty, StatusMatrix.cell, StatusMatrix.row?, List.getElem?_replicate] at hvote
    split_ifs at hvote <;> simp at hvote
  | deal ht ih =>
    rw [Shareholder.contribute_view] at hvote
    rw [Shareholder.contribute_ownStatuses]
    exact ih hread hvote
  | @read seen t out e r ht hr ih =>
    have hvalid := ht.valid h₀.valid
    have hd := hvalid.delivered_of_deliver hr
    have hseen : seen <+: log := (List.prefix_append seen [e]).trans hread
    have hpersists : t.ownStatuses[d]? = some (some .success) →
        r.shareholder.ownStatuses[d]? = some (some .success) :=
      Shareholder.success_persists hvalid (ht.sound h₀) hd
    rw [hd.view] at hvote
    rcases View.cell_after hvote hvalid.view with hvote | ⟨statuses, hpayload, hsender, hcell⟩ |
      ⟨b, notices, hpayload, haccuser, hsender, hlt, hstep⟩
    · exact hpersists (ih hseen hvote)
    · -- its own vector: it held the share when it announced, and a longer history is alike
      have hsender : e.sender = s₀.index := UInt32.toNat_inj.1 hsender
      obtain ⟨before, s, out', hbefore, hs, hout⟩ := hlog.vector hs₀ h₀ hn hread hsender hpayload
      obtain ⟨-, -, hsuccess⟩ := hs.announced h₀ hout
      obtain ⟨later, rfl⟩ := hbefore
      have hkept := hs.extend h₀.valid (P := fun s => s.Sound ∧ s.ownStatuses[d]? = some (some .success))
        ⟨hs.sound h₀, hsuccess d hcell⟩
        (fun s e r hv h hd => ⟨h.1.delivered hv hd, Shareholder.success_persists hv h.1 hd h.2⟩) later
      obtain ⟨t', out'', ht', -, hsuccess'⟩ := hkept
      rw [(ht.alike h₀.valid ht').ownStatuses] at hsuccess'
      exact hpersists hsuccess'
    · -- a rebuttal of its own complaint, which it takes over on reading
      have hindex : b.accuser = t.index := (UInt32.toNat_inj.1 haccuser).trans (ht.index_eq h₀.valid).symm
      exact (hd.adopted hpayload hlt hstep hindex hsender).1

/-! ## the count -/

section

variable {indices : List Index} {n f v : Nat} {voters : Finset Nat}

/-- of `v` voters among `n`, all but `f` of whom are listed, at least `v - f` are listed -/
theorem le_length_filter_voters (h : indices.Nodup) (hlt : ∀ i ∈ indices, i.toNat < n) (hn : n ≤ indices.length + f)
    (hvoters : ∀ j ∈ voters, j < n) (hv : v ≤ voters.card) :
    v ≤ (indices.filter (·.toNat ∈ voters)).length + f := by
  set listed := (indices.map UInt32.toNat).toFinset
  have hlisted_card : listed.card = indices.length := IndexSet.card_indices h
  have hlisted_lt : listed ⊆ Finset.range n := by
    intro i hi
    obtain ⟨j, hj, rfl⟩ := List.mem_map.1 (List.mem_toFinset.1 hi)
    exact Finset.mem_range.2 (hlt j hj)
  have hmissing : (voters \ listed).card ≤ f := by
    have hsub : voters \ listed ⊆ Finset.range n \ listed :=
      Finset.sdiff_subset_sdiff (fun j hj => Finset.mem_range.2 (hvoters j hj)) (Finset.Subset.refl _)
    have hcard := Finset.card_le_card hsub
    rw [Finset.card_sdiff_of_subset hlisted_lt, Finset.card_range, hlisted_card] at hcard
    omega
  have hfilter : voters ∩ listed ⊆ ((indices.filter (·.toNat ∈ voters)).map UInt32.toNat).toFinset := by
    intro j hj
    obtain ⟨hvote, hmem⟩ := Finset.mem_inter.1 hj
    obtain ⟨i, hi, rfl⟩ := List.mem_map.1 (List.mem_toFinset.1 hmem)
    exact List.mem_toFinset.2 (List.mem_map_of_mem (List.mem_filter.2 ⟨hi, by simpa using hvote⟩))
  have hpresent := Finset.card_le_card hfilter
  rw [IndexSet.card_indices (h.filter _)] at hpresent
  have hsplit := Finset.card_sdiff_add_card_inter voters listed
  omega

end

/-- **Recoverability.** Whenever a reader of an authentic log has QUAL frozen, each member of QUAL has more than `k` of the
shareholders that follow the protocol, of which at most `f` are missing, holding its share once they have read as much. -/
theorem qual_recoverable (hmembers : ∀ s₀ ∈ members, s₀.Fresh ∧ s₀.params = p)
    (hdistinct : (members.map (·.index)).Nodup) (hfaults : p.n ≤ members.length + p.f) (hlog : Authentic members log)
    {observer₀ observer : Shareholder F G} (hobserver₀ : observer₀.Fresh) (hparams : observer₀.params = p)
    (hread : read <+: log) (hobserver : History observer₀ read observer out) {q : IndexSet}
    (hq : observer.view.qual = some q) {d : Index} (hd : d ∈ q) :
    ∃ holders : List (Shareholder F G), holders.Sublist members ∧ p.k + 1 ≤ holders.length ∧ ∀ r₀ ∈ holders,
      (∃ r out, History r₀ read r out) ∧ ∀ r out, History r₀ read r out →
        ∃ pair c, r.shares[d.toNat]? = some (some pair) ∧ pair.index = r₀.index ∧
          r.view.commitments[d.toNat]? = some (some c) ∧
          (pedersen pair.value pair.blinding : G) = c.eval (xCoordinate r₀.index : F) := by
  have hview : observer.view = View.ofLog p read := hparams ▸ hobserver.view_eq_ofLog hobserver₀
  have hvalid : View.Valid p (View.ofLog p read : View G) := View.valid_ofLog p read
  have hadmissible : p.Admissible := hparams ▸ hobserver₀.valid.admissible
  rw [hview] at hq
  obtain ⟨-, hvotes⟩ := hvalid.qual_endorsed hq hd
  set voters := (View.ofLog p read : View G).verdicts.endorsers d.toNat with hvoters
  have hvoters_lt : ∀ j ∈ voters, j < p.n := by
    intro j hj
    rw [← hvalid.rows_length]
    exact Finset.mem_range.1 (Finset.mem_filter.1 hj).1
  have hlt : ∀ i ∈ members.map (·.index), i.toNat < p.n := by
    intro i hi
    obtain ⟨s₀, hs₀, rfl⟩ := List.mem_map.1 hi
    exact (hmembers s₀ hs₀).2 ▸ (hmembers s₀ hs₀).1.valid.index_lt
  have hn : p.n < 2 ^ 64 := by
    have hsize := IndexSet.length_le_of_nodup hdistinct
    rw [List.length_map] at hsize
    have hsize : members.length ≤ 2 ^ 32 := hsize
    have h1 := hadmissible.faults_lt
    have h2 := hadmissible.bound
    omega
  have hcount := le_length_filter_voters hdistinct hlt (by rwa [List.length_map]) hvoters_lt (Nat.succ_le_of_lt hvotes)
  refine ⟨members.filter fun s₀ => s₀.index.toNat ∈ voters, List.filter_sublist, ?_, fun r₀ hr₀ => ?_⟩
  · rw [List.filter_map, List.length_map] at hcount
    have : (members.filter fun s₀ => s₀.index.toNat ∈ voters).length =
        (members.filter ((fun i : Index => decide (i.toNat ∈ voters)) ∘ (·.index))).length := rfl
    omega
  · obtain ⟨hr₀, hvote⟩ := List.mem_filter.1 hr₀
    obtain ⟨hfresh, hparams₀⟩ := hmembers r₀ hr₀
    refine ⟨History.exists_of_log hfresh.valid read, fun r out hr => ?_⟩
    have hcell : r.view.verdicts.cell r₀.index.toNat d.toNat = some .success := by
      rw [hr.view_eq_ofLog hfresh, hparams₀]
      exact StatusMatrix.mem_endorsers.1 (by simpa using hvote)
    have hsuccess := hr.holds_of_vote hlog hr₀ hfresh (hparams₀ ▸ hn) hread hcell
    have hsound := hr.sound hfresh
    obtain ⟨pair, hpair⟩ := (hsound.success_iff d.toNat).1 hsuccess
    obtain ⟨hown, c, hc, hcorrect⟩ := hsound.opens d.toNat pair hpair
    rw [hr.index_eq hfresh.valid] at hown hcorrect
    exact ⟨pair, c, hpair, hown, hc, (of_decide_eq_true hcorrect).symm⟩

/-- five shareholders that have come to rest: some dealer is in QUAL, and three of them hold its share -/
theorem qual_recoverable_five : ∃ (log : List Envelope) (observer : Shareholder (ZMod 11) (ZMod 11)) (q : IndexSet)
    (d : Index) (holders : List (Shareholder (ZMod 11) (ZMod 11))), observer.view.qual = some q ∧ d ∈ q ∧
      3 ≤ holders.length ∧ ∀ r₀ ∈ holders, ∃ r out pair, History r₀ log r out ∧ r.shares[d.toNat]? = some (some pair) ∧
        pair.index = r₀.index := by
  have hC := Cast.ready_five
  obtain ⟨-, σ, -, -, -, hindices, hauthentic, hholds⟩ := hC.exists_rest (injOn_xCoordinate 11 Cast.n_five_le)
  obtain ⟨t, ht⟩ := List.exists_mem_of_length_pos (l := σ.readers) (by
    rw [← List.length_map Session.index, hindices, Params.length_dealers, Cast.params_five]
    decide)
  have hlt : (Session.index t).toNat < Cast.five.params.n := Params.mem_dealers.1 (hindices ▸ List.mem_map_of_mem ht)
  obtain ⟨⟨out, hhistory⟩, hqual, -⟩ := hholds t ht
  obtain ⟨q, hq⟩ := Option.isSome_iff_exists.1 hqual
  have hparams := hhistory.params_eq (hC.fresh _ hlt).valid
  have hsize : q.elems.length = 2 := by
    have hsize := ((hhistory.valid (hC.fresh _ hlt).valid).view.qual_size hq)
    rw [hparams, hC.params_eq hlt, Cast.params_five] at hsize
    exact hsize
  obtain ⟨d, hd⟩ := List.exists_mem_of_length_pos (l := q.elems) (by omega)
  obtain ⟨holders, -, hcount, hshares⟩ := qual_recoverable hC.fresh_members (hC.indices_members.symm ▸ hC.indices)
    (by rw [List.length_map, Params.length_dealers]; omega) hauthentic (hC.fresh _ hlt) (hC.params_eq hlt)
    (List.prefix_refl _) hhistory hq hd
  rw [Cast.params_five] at hcount
  refine ⟨σ.board.entries, t.shareholder, q, d, holders, hq, hd, hcount, fun r₀ hr₀ => ?_⟩
  obtain ⟨⟨r, out', hr⟩, hall⟩ := hshares r₀ hr₀
  obtain ⟨pair, c, hpair, hindex, -⟩ := hall r out' hr
  exact ⟨r, out', pair, hr, hpair, hindex⟩

end DistributedKey
