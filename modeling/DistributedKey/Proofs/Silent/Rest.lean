/-
Sessions at rest: everybody has dealt and has read the whole log.

- `Runs.exists_quiescent`: the shareholders can always come to rest, as any readers can.
- `Runs.frozen_iff`: at rest QUAL is frozen exactly if the honest shareholders are enough for it, and fewer than `2 ^ 32`.
- `Runs.settled`: at rest every honest shareholder has dealt, announced, and proved what it had to.
- `Runs.publicKey_eq`: so the public key is known. Of the dealers that QUAL is taken from, at least `k` have posted bulk
  proofs, and none of these can have been refused before the key was known.
- `Runs.isSome_qual_iff`, `Runs.isSome_publicKey_iff`: how many silent shareholders leave both.
- `Runs.at_rest`: what has come to rest has QUAL, the public key and all final shares.
- `Ready.exists_rest`: every cast that is ready comes to rest with QUAL, the public key and all final shares, on an
  authentic log. `Staffed.exists_stall`: one that can never be comes to rest with neither of the first two.
-/
import DistributedKey.Proofs.Silent.Run
import DistributedKey.Proofs.Turn

namespace DistributedKey

variable {F G : Type}
variable [Field F] [AddCommGroup G] [Module F G] [Suite F G]

namespace Cast

variable {C : Cast F G} {posts : List (Post F G)} {σ σ' : Session F G} {r : Reader F G} {i : Index}

theorem length_honest_le (hC : C.Staffed) {kind : Opcode} (hall : ∀ i ∈ C.honest, i ∈ senders kind posts) :
    C.honest.length ≤ (senders kind posts).length :=
  (hC.nodup_honest.subperm hall).length_le

theorem Staffed.enough_iff (hC : C.Staffed) :
    C.params.k + C.params.f < C.params.n - C.silent.length ↔ C.params.k + C.params.f < C.honest.length := by
  have hsplit := hC.length_honest
  omega

variable [Wire F] [Wire G] [DecidableEq F] [DecidableEq G]

/-! ## nothing left to do -/

/-- whatever is due has been posted by those who have read the whole log -/
theorem Runs.posted (h : C.Runs posts σ) (hd : σ.Drained) (hi : i ∈ C.honest) (kind : Opcode)
    (hdue : C.Due posts i kind) : i ∈ senders kind posts := by
  obtain ⟨r, hr, -, rfl⟩ := h.exists_reader (lt_of_mem_honest hi)
  have hcursor := hd r hr
  rw [Board.length, h.board, List.length_map] at hcursor
  by_cases hkind : kind = .contribution
  · subst hkind
    exact hdue.elim
  · rw [(h.follows r hr).posted hi kind hkind, hcursor, List.take_length]
    exact hdue

theorem Runs.dealt (h : C.Runs posts σ) (hq : σ.Quiescent) (hi : i ∈ C.honest) : i ∈ senders .contribution posts := by
  obtain ⟨r, hr, -, rfl⟩ := h.exists_reader (lt_of_mem_honest hi)
  exact ((h.follows r hr).dealt hi).2 (hq r hr).1

/-- all contributions that a vector needs are there -/
theorem Runs.stocked (h : C.Runs posts σ) (hC : C.Staffed) (hq : σ.Quiescent) : C.Stocked posts := by
  have hdealers := length_honest_le hC fun i hi => h.dealt hq hi
  have := hC.le_length_honest
  rw [Stocked]
  omega

/-- everybody who is not silent has announced, so QUAL is frozen exactly if these are enough for it and looked at -/
theorem Runs.frozen_iff (h : C.Runs posts σ) (hC : C.Staffed) (hd : σ.Drained) (hstocked : C.Stocked posts) :
    C.Frozen posts ↔ C.params.n < UInt32.size ∧ C.params.k + C.params.f < C.honest.length := by
  have hannounced := length_honest_le hC fun i hi => h.posted hd hi .verification hstocked
  rw [Frozen]
  exact and_congr_right fun _ => ⟨fun hlt => lt_of_lt_of_le hlt (h.orderly.length_senders_le .verification),
    fun hlt => lt_of_lt_of_le hlt hannounced⟩

/-- members of QUAL have proved their constant terms -/
theorem Runs.proved (h : C.Runs posts σ) (hC : C.Staffed) (hd : σ.Drained) (hf : C.Frozen posts) :
    senders .proof posts ≠ [] := by
  have hsize : (C.chosen posts).elems.length = C.params.f + 1 :=
    h.orderly.size_chosen hC.admissible (h.orderly.stocked_of_frozen hf)
  obtain ⟨d, hchosen⟩ := List.exists_mem_of_length_pos (show 0 < (C.chosen posts).elems.length by omega)
  have hhonest : d ∈ C.honest := h.orderly.honest (mem_senders_of_mem_dealt (mem_dealt_of_mem_chosen hchosen))
  exact List.ne_nil_of_mem (h.posted hd hhonest .proof ⟨hf, hchosen⟩)

/-- all contributions are there, QUAL is frozen, and every honest shareholder has proved its shares -/
theorem Runs.settled (h : C.Runs posts σ) (hC : C.Ready) (hq : σ.Quiescent) :
    C.Frozen posts ∧ C.Stocked posts ∧ ∀ i ∈ C.honest, i ∈ senders .bulkProof posts := by
  have hstocked := h.stocked hC hq
  have hfrozen : C.Frozen posts := (h.frozen_iff hC hq.drained hstocked).2 ⟨hC.lt_words, hC.lt_length_honest⟩
  exact ⟨hfrozen, hstocked, fun i hi => h.posted hq.drained hi .bulkProof (h.proved hC hq.drained hfrozen)⟩

/-- enough bulk proofs come from dealers that nobody can refuse -/
theorem Runs.publicKey_eq (h : C.Runs posts σ) (hC : C.Ready) (hq : σ.Quiescent) {v : View G} (hv : C.Shows posts v) :
    v.publicKey = some (C.secret posts • (generator : G)) := by
  obtain ⟨-, hstocked, hbulk⟩ := h.settled hC hq
  rcases hv.key with ⟨-, hkey⟩ | ⟨-, hsize, hall⟩
  · exact hkey
  · have hsub : ∀ d ∈ C.dealt posts, d ∈ v.uSet.elems := fun d hd =>
      hall d (hbulk d (h.orderly.honest (mem_senders_of_mem_dealt hd))) hd
    have hle := (h.orderly.nodup_dealt.subperm hsub).length_le
    rw [hstocked.length_dealt] at hle
    have := hC.admissible.bound
    have hsize : v.uSet.elems.length < C.params.k := hsize
    omega

/-- what everybody holds at rest -/
theorem Runs.holds (h : C.Runs posts σ) (hq : σ.Quiescent) (hr : r ∈ σ.readers) :
    C.Holds (Session.index r) posts r.shareholder := by
  have hcursor := (hq r hr).2
  have hholds := (h.follows r hr).holds
  rw [Board.length, h.board, List.length_map] at hcursor
  rwa [hcursor, List.take_length] at hholds

/-- at rest QUAL is there exactly if there are dealers to look at and enough shareholders are left -/
theorem Runs.isSome_qual_iff (h : C.Runs posts σ) (hC : C.Staffed) (hq : σ.Quiescent) (hr : r ∈ σ.readers) :
    r.shareholder.view.qual.isSome ↔
      C.params.n < UInt32.size ∧ C.params.k + C.params.f < C.params.n - C.silent.length := by
  calc r.shareholder.view.qual.isSome = true
      ↔ C.Frozen posts := (h.holds hq hr).shows.isSome_qual
    _ ↔ C.params.n < UInt32.size ∧ C.params.k + C.params.f < C.honest.length :=
        h.frozen_iff hC hq.drained (h.stocked hC hq)
    _ ↔ C.params.n < UInt32.size ∧ C.params.k + C.params.f < C.params.n - C.silent.length :=
        and_congr_right fun _ => hC.enough_iff.symm

/-- and so is the public key, because a key comes after QUAL -/
theorem Runs.isSome_publicKey_iff (h : C.Runs posts σ) (hC : C.Staffed) (hq : σ.Quiescent) (hr : r ∈ σ.readers) :
    r.shareholder.view.publicKey.isSome ↔
      C.params.n < UInt32.size ∧ C.params.k + C.params.f < C.params.n - C.silent.length := by
  have hshows := (h.holds hq hr).shows
  constructor
  · intro hkey
    rcases hshows.key with ⟨hfrozen, -⟩ | ⟨hnone, -⟩
    · exact (h.isSome_qual_iff hC hq hr).1 (hshows.isSome_qual.2 hfrozen)
    · rw [hnone] at hkey
      cases hkey
  · rintro ⟨hlooked, henough⟩
    have hready : C.Ready := { hC with lt_words := hlooked, enough := henough }
    rw [h.publicKey_eq hready hq hshows]
    rfl

/-! ## coming to rest -/

theorem Runs.sane (h : C.Runs posts σ) (hC : C.Staffed) : σ.Sane where
  valid r hr := (h.follows r hr).holds.valid
  cursor_le r hr := by
    rw [Board.length, h.board, List.length_map]
    exact (h.follows r hr).cursor_le
  distinct := by
    rw [h.indices]
    exact hC.indices

variable [Sampled F]

/-- what a reader has been through and holds at rest -/
theorem Runs.at_rest (h : C.Runs posts σ) (hC : C.Ready) (hq : σ.Quiescent)
    (hfaithful : σ.Faithful (C.params.dealers.map C.start)) (hr : r ∈ σ.readers) :
    (∃ out, History (C.start (Session.index r)) σ.board.entries r.shareholder out) ∧
      r.shareholder.view.qual.isSome ∧ r.shareholder.view.publicKey.isSome ∧ r.shareholder.finalShare.isSome := by
  obtain ⟨hfrozen, -, -⟩ := h.settled hC hq
  have hholds := h.holds hq hr
  refine ⟨?_, ?_, ?_, ?_⟩
  · obtain ⟨out, hs⟩ := hC.exists_history hfaithful hr
    rw [(hq r hr).2, Board.length, List.take_length] at hs
    exact ⟨out, hs⟩
  · rw [hholds.shows.qual, if_pos hfrozen]
    rfl
  · rw [h.publicKey_eq hC hq hholds.shows]
    rfl
  · rw [hholds.finalShare, if_pos hfrozen]
    rfl

variable [LawfulWire F] [LawfulWire G]

/-- **The shareholders can always come to rest.** -/
theorem Runs.exists_quiescent (h : C.Runs posts σ) (hC : C.Staffed)
    (hinj : Set.InjOn (xCoordinate (F := F)) {i : Index | i.toNat < C.params.n}) :
    ∃ ms σ' posts', (∀ m ∈ ms, C.Own m) ∧ σ.moves ms = some σ' ∧ C.Runs posts' σ' ∧ σ'.Quiescent := by
  obtain ⟨ms, σ', hms, hmoves, hq⟩ := (h.sane hC).exists_quiescent
  have hown : ∀ m ∈ ms, C.Own m := by
    intro m hm
    obtain ⟨hof, hpost⟩ := hms m hm
    rw [h.indices] at hof
    cases m with
    | deal i => exact Params.mem_dealers.1 hof
    | read i => exact Params.mem_dealers.1 hof
    | post e => cases hpost
  obtain ⟨σ'', posts', hmoves', hruns⟩ := h.moves hC hinj hown
  obtain rfl := Option.some.inj (hmoves'.symm.trans hmoves)
  exact ⟨ms, σ'', posts', hown, hmoves, hruns, hq⟩

/-- **Every cast comes to rest** with QUAL, the public key and all final shares, on an authentic log. -/
theorem Ready.exists_rest (hC : C.Ready)
    (hinj : Set.InjOn (xCoordinate (F := F)) {i : Index | i.toNat < C.params.n}) :
    ∃ ms σ, (∀ m ∈ ms, C.Own m) ∧ C.session.moves ms = some σ ∧ σ.Quiescent ∧
      σ.readers.map Session.index = C.params.dealers ∧ Authentic (C.params.dealers.map C.start) σ.board.entries ∧
      ∀ r ∈ σ.readers, (∃ out, History (C.start (Session.index r)) σ.board.entries r.shareholder out) ∧
        r.shareholder.view.qual.isSome ∧ r.shareholder.view.publicKey.isSome ∧ r.shareholder.finalShare.isSome := by
  obtain ⟨ms, σ, posts, hms, hmoves, hruns, hq⟩ := hC.runs_start.exists_quiescent hC hinj
  have hfaithful := hC.faithful hms hmoves
  exact ⟨ms, σ, hms, hmoves, hq, hruns.indices, hfaithful.authentic, fun r hr => hruns.at_rest hC hq hfaithful hr⟩

/-- and each of its shareholders then has a history over one orderly log -/
theorem Ready.exists_at_rest (hC : C.Ready)
    (hinj : Set.InjOn (xCoordinate (F := F)) {i : Index | i.toNat < C.params.n}) (hi : i.toNat < C.params.n) :
    ∃ (posts : List (Post F G)) (s : Shareholder F G) (out : List (Payload F G)), C.Orderly posts ∧
      Authentic (C.params.dealers.map C.start) (posts.map Post.seal) ∧
        History (C.start i) (posts.map Post.seal) s out ∧ s.view.qual.isSome ∧ s.view.publicKey.isSome ∧
          s.finalShare.isSome := by
  obtain ⟨ms, σ, posts, hms, hmoves, hruns, hq⟩ := hC.runs_start.exists_quiescent hC hinj
  obtain ⟨r, hr, -, rfl⟩ := hruns.exists_reader hi
  have hfaithful := hC.faithful hms hmoves
  have hauthentic := hfaithful.authentic
  obtain ⟨⟨out, hhistory⟩, hrest⟩ := hruns.at_rest hC hq hfaithful hr
  rw [hruns.board] at hauthentic hhistory
  exact ⟨posts, r.shareholder, out, hruns.orderly, hauthentic, hhistory, hrest⟩

/-- **A cast that is too large, or too much of which is silent, stalls:** it comes to rest with neither QUAL nor the public
key at any shareholder. -/
theorem Staffed.exists_stall (hC : C.Staffed) (hinj : Set.InjOn (xCoordinate (F := F)) {i : Index | i.toNat < C.params.n})
    (hfew : ¬ (C.params.n < UInt32.size ∧ C.params.k + C.params.f < C.params.n - C.silent.length)) :
    ∃ ms σ, (∀ m ∈ ms, C.Own m) ∧ C.session.moves ms = some σ ∧ σ.Quiescent ∧ σ.readers.length = C.params.n ∧
      ∀ r ∈ σ.readers, r.shareholder.view.qual = none ∧ r.shareholder.view.publicKey = none := by
  obtain ⟨ms, σ, posts, hms, hmoves, hruns, hq⟩ := hC.runs_start.exists_quiescent hC hinj
  refine ⟨ms, σ, hms, hmoves, hq, ?_, fun r hr => ⟨?_, ?_⟩⟩
  · rw [← List.length_map Session.index, hruns.indices, Params.length_dealers]
  · rwa [← Option.not_isSome_iff_eq_none, hruns.isSome_qual_iff hC hq hr]
  · rwa [← Option.not_isSome_iff_eq_none, hruns.isSome_publicKey_iff hC hq hr]

end Cast

end DistributedKey
