/-
How many silent shareholders a run survives.

QUAL takes more than `k + f` vectors that endorse a dealer, and at rest there is one vector from everybody who is not
silent. So a run ends with QUAL and the public key exactly if more than `k + f` shareholders are left:

- `quiescent_settles_iff`: this, for every interleaving, at every shareholder.
- `stalled_four`: with `n = 4`, `k = 2` and `f = 1`, which are admissible, one silent shareholder is one too many. The
  other three come to rest with neither, and nothing is left that could still happen.
-/
import DistributedKey.Proofs.Silent.Rest
import DistributedKey.Proofs.Silent.Uniform

namespace DistributedKey

variable {F G : Type} [Field F] [AddCommGroup G] [Module F G] [Suite F G] [Wire F] [Wire G] [Sampled F] [DecidableEq F]
  [DecidableEq G] [LawfulWire F] [LawfulWire G] {C : Cast F G}

/-- **How many silent shareholders a run survives.** However fewer than `2 ^ 32` shareholders deal and read, no move fails;
and once everybody has dealt and has read the whole log, QUAL is frozen and the public key known, at each of them, exactly
if more than `k + f` are not silent. -/
theorem quiescent_settles_iff (r : Nat) [CharP F r] (hr : C.params.n ≤ r) (hC : C.Staffed) (hn : C.params.n < UInt32.size)
    {ms : List Move} (hms : ∀ m ∈ ms, C.Own m) :
    ∃ σ, C.session.moves ms = some σ ∧ σ.readers.map Session.index = C.params.dealers ∧ (σ.Quiescent →
      ∀ t ∈ σ.readers,
        (t.shareholder.view.qual.isSome ↔ C.params.k + C.params.f < C.params.n - C.silent.length) ∧
        (t.shareholder.view.publicKey.isSome ↔ C.params.k + C.params.f < C.params.n - C.silent.length)) := by
  obtain ⟨σ, posts, hmoves, hruns⟩ := hC.runs_start.moves hC (injOn_xCoordinate r hr) hms
  refine ⟨σ, hmoves, hruns.indices, ?_⟩
  intro hq t ht
  exact ⟨(hruns.isSome_qual_iff hC hq ht).trans (and_iff_right hn),
    (hruns.isSome_publicKey_iff hC hq ht).trans (and_iff_right hn)⟩

/-- five shareholders, one of them silent, leave enough -/
theorem quiescent_settles_iff_five : ∃ (ms : List Move) (σ : Session (ZMod 11) (ZMod 11)),
    Cast.five.session.moves ms = some σ ∧ σ.Quiescent ∧ σ.readers.length = 5 ∧
      ∀ t ∈ σ.readers, t.shareholder.view.qual.isSome ∧ t.shareholder.view.publicKey.isSome := by
  obtain ⟨ms, σ, hms, hmoves, hq, -⟩ := Cast.ready_five.exists_rest (injOn_xCoordinate 11 Cast.n_five_le)
  obtain ⟨σ', hmoves', hindices, hrest⟩ := quiescent_settles_iff 11 Cast.n_five_le Cast.ready_five.toStaffed
    Cast.ready_five.lt_words hms
  obtain rfl := Option.some.inj (hmoves'.symm.trans hmoves)
  refine ⟨ms, σ', hmoves, hq, ?_, fun t ht => ?_⟩
  · rw [← List.length_map Session.index, hindices, Params.length_dealers, Cast.params_five]
  · obtain ⟨hqual, hkey⟩ := hrest hq t ht
    exact ⟨hqual.2 Cast.ready_five.enough, hkey.2 Cast.ready_five.enough⟩

/-- four shareholders, two shares to reconstruct, one fault tolerated, and shareholder 0 silent -/
def Cast.four : Cast (ZMod 11) (ZMod 11) := .uniform (ZMod 11) { n := 4, k := 2, f := 1 } 1

/-- `4 - 2 * 1` shares to reconstruct are admissible, but three shareholders are not more than `2 + 1` -/
theorem stalled_four : ({ n := 4, k := 2, f := 1 } : Config).validate = .ok () ∧ Cast.four.Staffed ∧
    Cast.four.params = ⟨4, 2, 1⟩ ∧ Cast.four.silent.length ≤ 1 ∧
    ∃ (ms : List Move) (σ : Session (ZMod 11) (ZMod 11)), (∀ m ∈ ms, Cast.four.Own m) ∧
      Cast.four.session.moves ms = some σ ∧ σ.Quiescent ∧ σ.readers.length = 4 ∧
      ∀ t ∈ σ.readers, t.shareholder.view.qual = none ∧ t.shareholder.view.publicKey = none := by
  have hC : Cast.four.Staffed :=
    Cast.staffed_uniform one_ne_zero (fun _ => ⟨rfl, rfl⟩) rfl (by decide) (by decide)
  have hparams : Cast.four.params = ⟨4, 2, 1⟩ := Cast.params_uniform
  have hsilent : Cast.four.silent = [0] := by decide
  have hfew : ¬ (Cast.four.params.n < UInt32.size ∧
      Cast.four.params.k + Cast.four.params.f < Cast.four.params.n - Cast.four.silent.length) := by
    rw [hparams, hsilent]
    decide
  have hn : Cast.four.params.n ≤ 11 := by rw [hparams]; decide
  obtain ⟨ms, σ, hms, hmoves, hq, hlength, hstalled⟩ := hC.exists_stall (injOn_xCoordinate 11 hn) hfew
  rw [hparams] at hlength
  exact ⟨rfl, hC, hparams, hsilent ▸ le_rfl, ms, σ, hms, hmoves, hq, hlength, hstalled⟩

end DistributedKey
