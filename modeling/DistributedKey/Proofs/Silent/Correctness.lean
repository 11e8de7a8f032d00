/-
End-to-end correctness of runs with silent faults.

- `finalPair_value`: final shares are values of one polynomial of `k` coefficients, the sum of those of QUAL.
- `Runs.recover_eq`: hence any `k` of them recover what it has at zero.
- `silent_faults_tolerated`: every interleaving goes through, and when nothing is left to do all shareholders, silent ones
  included, agree on QUAL and on the public key, hold their final shares, and any `k` of them recover the secret.
- `all_words_stalled`: this takes fewer than `2 ^ 32` shareholders. With so many, all of them honest, nothing is settled.
-/
import DistributedKey.Proofs.Curve.Field
import DistributedKey.Proofs.Silent.Rest
import DistributedKey.Proofs.Silent.Uniform

namespace DistributedKey

variable {F G : Type}

/-- who dealt, in the order of the log -/
def Board.dealers (b : Board) : List Index :=
  (b.entries.filter fun e => e.opcode = Opcode.contribution.code).map (·.sender)

variable [Field F]

namespace Cast

variable {C : Cast F G} {posts : List (Post F G)} {σ : Session F G} {i : Index}

/-! ## the secret -/

/-- final shares are values of the sum of the polynomials of QUAL -/
theorem finalPair_value (C : Cast F G) (posts : List (Post F G)) (i : Index) : (C.finalPair posts i).value =
    (Poly.sum ((C.chosen posts).elems.map fun d => (C.start d).f1)).eval (xCoordinate i : F) := by
  rw [Poly.eval_sum, List.map_map]
  rfl

variable [AddCommGroup G] [Module F G] [Suite F G] [Wire F] [Wire G] [DecidableEq F] [DecidableEq G]

theorem Runs.dealers_eq (h : C.Runs posts σ) : σ.board.dealers = senders .contribution posts := by
  have hcode : ∀ kind : Opcode, kind.code = Opcode.contribution.code ↔ kind = .contribution := by
    intro kind
    cases kind <;> decide
  rw [Board.dealers, h.board, List.filter_map, List.map_map, senders]
  congr 1
  refine List.filter_congr fun x _ => ?_
  simp [Post.seal, Payload.toEnvelope, hcode]

theorem Runs.recover_eq (h : C.Runs posts σ) (hC : C.Ready)
    (hinj : Set.InjOn (xCoordinate (F := F)) {i : Index | i.toNat < C.params.n}) {indices : List Index}
    (hnodup : indices.Nodup) (hlt : ∀ i ∈ indices, i.toNat < C.params.n) (hk : C.params.k ≤ indices.length) :
    recover F C.params.k (indices.map fun i => (C.finalPair posts i).valueEval) = .ok (C.secret posts) := by
  have hindices : (indices.map fun i => (C.finalPair posts i).valueEval).map (·.index) = indices := by
    rw [List.map_map]
    exact List.map_id _
  have hlen : ∀ p ∈ (C.chosen posts).elems.map fun d => (C.start d).f1, p.length ≤ C.params.k := by
    intro p hp
    obtain ⟨d, hd, rfl⟩ := List.mem_map.1 hp
    exact (hC.length_f1 (lt_of_mem_honest
      (h.orderly.honest (mem_senders_of_mem_dealt (mem_dealt_of_mem_chosen hd))))).le
  rw [recover_eval (Poly.length_sum_le hlen), ← Poly.eval_zero (F := F), Poly.eval_sum, List.map_map]
  · rfl
  · intro e he
    obtain ⟨i, -, rfl⟩ := List.mem_map.1 he
    exact C.finalPair_value posts i
  · rw [hindices]
    exact hinj.mono hlt
  · rwa [hindices, List.toFinset_card_of_nodup hnodup]

end Cast

variable [AddCommGroup G] [Module F G] [Suite F G] [Wire F] [Wire G] [Sampled F] [DecidableEq F] [DecidableEq G]
  [LawfulWire F] [LawfulWire G] {C : Cast F G}

/-- **Runs with silent faults are correct.** However the shareholders deal and read, no move fails; and once everybody has
dealt and has read the whole log, all `n` of them hold the same QUAL, the `f + 1` lowest of the first `n - f` dealers, each
holds the sum of what QUAL dealt to it, any `k` recover the sum of what QUAL has at zero, and this is the secret of the
public key. -/
theorem silent_faults_tolerated (r : Nat) [CharP F r] (hr : C.params.n ≤ r) (hC : C.Ready) {ms : List Move}
    (hms : ∀ m ∈ ms, C.Own m) :
    ∃ σ, C.session.moves ms = some σ ∧ σ.readers.map Session.index = C.params.dealers ∧ (σ.Quiescent →
      let q := (IndexSet.ofList (σ.board.dealers.take (C.params.n - C.params.f))).least (C.params.f + 1)
      let secret := (q.elems.map fun d => (C.start d).f1.eval (0 : F)).sum
      q.size = C.params.f + 1 ∧
      (∀ t ∈ σ.readers, t.shareholder.view.qual = some q ∧
        t.shareholder.finalShare = some ⟨Session.index t,
          (q.elems.map fun d => (C.start d).f1.eval (xCoordinate (Session.index t) : F)).sum,
          (q.elems.map fun d => (C.start d).f2.eval (xCoordinate (Session.index t) : F)).sum⟩ ∧
        t.shareholder.view.publicKey = some (secret • (generator : G))) ∧
      ∀ team : List (Reader F G), (∀ t ∈ team, t ∈ σ.readers) → (team.map Session.index).Nodup →
        team.length = C.params.k →
        recover F C.params.k (team.filterMap fun t => t.shareholder.finalShare.map SharePair.valueEval) = .ok secret) := by
  have hinj := injOn_xCoordinate (F := F) r hr
  obtain ⟨σ, posts, hmoves, hruns⟩ := hC.runs_start.moves hC hinj hms
  refine ⟨σ, hmoves, hruns.indices, fun hq => ?_⟩
  obtain ⟨hfrozen, hstocked, -⟩ := hruns.settled hC hq
  rw [hruns.dealers_eq]
  have hholds : ∀ t ∈ σ.readers, C.Holds (Session.index t) posts t.shareholder := fun t ht => hruns.holds hq ht
  have hfinal : ∀ t ∈ σ.readers, t.shareholder.finalShare = some (C.finalPair posts (Session.index t)) := by
    intro t ht
    rw [(hholds t ht).finalShare, if_pos hfrozen]
  refine ⟨hruns.orderly.size_chosen hC.admissible hstocked, fun t ht => ⟨?_, hfinal t ht, ?_⟩, ?_⟩
  · rw [(hholds t ht).shows.qual, if_pos hfrozen]
    rfl
  · exact hruns.publicKey_eq hC hq (hholds t ht).shows
  · intro team hteam hnodup hk
    have hshares : (team.filterMap fun t => t.shareholder.finalShare.map SharePair.valueEval) =
        (team.map Session.index).map fun i => (C.finalPair posts i).valueEval := by
      rw [List.map_map, ← List.filterMap_eq_map]
      refine List.filterMap_congr fun t ht => ?_
      rw [hfinal t (hteam t ht)]
      rfl
    rw [hshares]
    refine hruns.recover_eq hC hinj hnodup (fun i hi => ?_) (by rw [List.length_map, hk])
    obtain ⟨t, ht, rfl⟩ := List.mem_map.1 hi
    exact Params.mem_dealers.1 (hruns.indices ▸ List.mem_map_of_mem (hteam t ht))

/-- five shareholders, one of them silent, all of which come to hold the public key of the secret `1 + 1` -/
theorem silent_faults_tolerated_five : ∃ (ms : List Move) (σ : Session (ZMod 11) (ZMod 11)),
    Cast.five.session.moves ms = some σ ∧ σ.Quiescent ∧ σ.readers.length = 5 ∧
      ∀ t ∈ σ.readers, t.shareholder.view.publicKey = some 2 ∧ t.shareholder.finalShare.isSome := by
  obtain ⟨ms, σ, hms, hmoves, hq, -⟩ := Cast.ready_five.exists_rest (injOn_xCoordinate 11 Cast.n_five_le)
  obtain ⟨σ', hmoves', hindices, hrest⟩ := silent_faults_tolerated 11 Cast.n_five_le Cast.ready_five hms
  obtain rfl := Option.some.inj (hmoves'.symm.trans hmoves)
  obtain ⟨hsize, hholds, -⟩ := hrest hq
  refine ⟨ms, σ', hmoves, hq, ?_, fun t ht => ?_⟩
  · rw [← List.length_map Session.index, hindices, Params.length_dealers, Cast.params_five]
  · obtain ⟨-, hfinal, hkey⟩ := hholds t ht
    have hone : ∀ d : Index, (Cast.five.start d).f1.eval (0 : ZMod 11) = 1 := by
      intro d
      rw [Poly.eval_zero]
      rfl
    refine ⟨hkey.trans ?_, by rw [hfinal]; rfl⟩
    simp only [hone, List.map_const', List.sum_replicate]
    rw [show List.length _ = Cast.five.params.f + 1 from hsize, Cast.params_five]
    decide

/-- a prime modulus that leaves an x coordinate for every index -/
def wideModulus : Nat := 9586122913090633729

instance : Fact wideModulus.Prime := ⟨prime_9586122913090633729⟩

instance : LawfulWire (ZMod wideModulus) := lawfulWire_residue (by decide)

/-- `2 ^ 32` honest shareholders, one share to reconstruct, no fault tolerated -/
def Cast.allWords : Cast (ZMod wideModulus) (ZMod wideModulus) :=
  .uniform (ZMod wideModulus) { n := 4294967296, k := 1, f := 0 } 0

/-- All of `2 ^ 32` honest shareholders come to rest with nothing, because the search for QUAL ends where it begins. -/
theorem all_words_stalled : ({ n := 4294967296, k := 1, f := 0 } : Config).validate = .ok () ∧ Cast.allWords.Staffed ∧
    Cast.allWords.params = ⟨4294967296, 1, 0⟩ ∧ Cast.allWords.silent = [] ∧
    ∃ (ms : List Move) (σ : Session (ZMod wideModulus) (ZMod wideModulus)), (∀ m ∈ ms, Cast.allWords.Own m) ∧
      Cast.allWords.session.moves ms = some σ ∧ σ.Quiescent ∧ σ.readers.length = 4294967296 ∧
      ∀ t ∈ σ.readers, t.shareholder.view.qual = none ∧ t.shareholder.view.publicKey = none := by
  have hC : Cast.allWords.Staffed :=
    Cast.staffed_uniform one_ne_zero (fun _ => ⟨rfl, rfl⟩) rfl (by decide) (by decide)
  have hparams : Cast.allWords.params = ⟨4294967296, 1, 0⟩ := Cast.params_uniform
  have hsilent : Cast.allWords.silent.length ≤ 0 := Cast.length_silent_uniform (by decide)
  have hfew : ¬ (Cast.allWords.params.n < UInt32.size ∧
      Cast.allWords.params.k + Cast.allWords.params.f < Cast.allWords.params.n - Cast.allWords.silent.length) := by
    rw [hparams]
    exact fun h => Nat.lt_irrefl _ h.1
  have hn : Cast.allWords.params.n ≤ wideModulus := by rw [hparams]; decide
  obtain ⟨ms, σ, hms, hmoves, hq, hlength, hstalled⟩ := hC.exists_stall (injOn_xCoordinate wideModulus hn) hfew
  rw [hparams] at hlength
  exact ⟨rfl, hC, hparams, List.length_eq_zero_iff.1 (Nat.le_zero.1 hsilent), ms, σ, hms, hmoves, hq, hlength, hstalled⟩

end DistributedKey
