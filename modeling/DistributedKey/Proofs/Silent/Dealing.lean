/-
What an honest dealer broadcasts is opened by every shareholder to the pair that is dealt to it.

- `Staffed.openShare_sealShares`: a box that was sealed for a shareholder of the cast is opened by it.
- `Staffed.deals`: the contribution of an honest dealer `Deals`, whichever randomness its boxes are sealed with.
-/
import DistributedKey.Proofs.Silent.Post

namespace DistributedKey

variable {F G : Type}

variable [Field F] [AddCommGroup G] [Module F G] [Suite F G] [Wire F] [Wire G] [Sampled F]

namespace Cast

variable [LawfulWire F] {C : Cast F G} {d i : Index} {s : Shareholder F G}

/-- a box that was sealed for a shareholder of the cast is opened by it -/
theorem Staffed.openShare_sealShares (h : C.Staffed) (hi : i.toNat < C.params.n) {t : Shareholder F G}
    (ht : t.identity = (C.start i).identity) (f1 f2 : Poly F) (rng : Random) :
    t.openShare (Shareholder.sealShares f1 f2 C.group.participants rng).1 = .ok (Shareholder.pairFor f1 f2 i) := by
  have hindex : t.index = i := (congrArg Identity.index ht).trans (h.index_eq i hi)
  have hprivate : t.privateKey = (C.start i).privateKey := congrArg Identity.privateKey ht
  have hkey := (h.fresh i hi).key
  rw [h.group_eq i hi, h.index_eq i hi, ← hprivate, ← hindex] at hkey
  obtain ⟨keys, config, hgroup⟩ := h.group
  rw [← hindex]
  exact Shareholder.openShare_sealShares hgroup hkey f1 f2 rng

variable [DecidableEq G]

/-- **An honest dealer deals to everybody** what its polynomials say, when it first deals. -/
theorem Staffed.deals (h : C.Staffed) (hd : d ∈ C.honest) (hs : s.identity = (C.start d).identity)
    (hcontributed : s.contributed = false) :
    ∃ c, s.contribute.1 = some (.contribution c) ∧ C.Deals d c := by
  have hlt := lt_of_mem_honest hd
  have hgroup : s.group = C.group := (congrArg Identity.group hs).trans (h.group_eq d hlt)
  have hbehavior : s.behavior = .honest := (congrArg Identity.behavior hs).trans (mem_honest.1 hd).2
  have hf1 : s.f1 = (C.start d).f1 := congrArg Identity.f1 hs
  have hf2 : s.f2 = (C.start d).f2 := congrArg Identity.f2 hs
  have hcommitments : s.commitments = (C.start d).commitments := by
    rw [Shareholder.commitments_of_honest hbehavior, Shareholder.commitments_of_honest (mem_honest.1 hd).2, hf1, hf2]
  obtain ⟨keys, config, hcreate⟩ := h.group
  refine ⟨_, Shareholder.contribute_honest hbehavior hcontributed, ?_⟩
  rw [hgroup, hf1, hf2, hcommitments]
  have hlength : (C.start d).commitments.length < 2 ^ 64 := by
    rw [h.length_commitments hd]
    exact C.group.threshold.toNat_lt
  exact ⟨rfl, Shareholder.fits_contribution hlength _ _ (length_participants_lt hcreate) _,
    fun i hi t ht => h.openShare_sealShares hi ht _ _ _⟩

end Cast

end DistributedKey
