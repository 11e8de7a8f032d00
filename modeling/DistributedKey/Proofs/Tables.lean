/-
The four tables of a shareholder, read together.

For each dealer a shareholder keeps its own judgment, whether it has seen a contribution, the commitments, and the share
it accepted. Two handlers write them, on different paths: a contribution that is accepted, one that is not and whose
commitments are kept all the same, and a rebuttal of the own complaint.

- `InStep`: what the four entries for one dealer have to do with each other.
- `Sound.inStep`: they have, in a state whose view is valid and whose tables are sound.
- `tables_in_step`: so they have for every dealer, whatever has been read.
-/
import DistributedKey.Proofs.Rejection
import DistributedKey.Proofs.ShareTable

namespace DistributedKey

variable {F G : Type}

namespace Shareholder

variable [Suite F G] [NatCast F] [Zero G] [Add G] [SMul F G] [DecidableEq G]

/-- what shareholder `i` keeps about one dealer, if `k` shares reconstruct: its judgment, whether it has seen a
contribution, the commitments, and the share -/
structure InStep (i : Index) (k : Nat) (own : Option Status) (seen : Bool) (commitments : Option (Poly G))
    (share : Option (SharePair F)) : Prop where
  judged : own.isSome ↔ seen = true
  success : own = some .success ↔ ∃ pair, share = some pair
  proper : ∀ c, commitments = some c → seen = true ∧ c.length = k ∧ ∀ x ∈ c.coeffs, x ≠ 0
  opens : ∀ pair, share = some pair → ∃ c, commitments = some c ∧ pair.index = i ∧
    pedersen pair.value pair.blinding = c.eval (xCoordinate i : F)

variable {s : Shareholder F G} {d : Nat} {own : Option Status} {seen : Bool} {commitments : Option (Poly G)}
  {share : Option (SharePair F)}

/-- sound tables are in step -/
theorem Sound.inStep (h : s.Sound) (hv : s.Valid) (hown : s.ownStatuses[d]? = some own)
    (hseen : s.view.seen[d]? = some seen) (hcommitments : s.view.commitments[d]? = some commitments)
    (hshare : s.shares[d]? = some share) : InStep s.index s.params.k own seen commitments share where
  judged := by
    have hjudged := h.judged d
    rw [hown, hseen, Option.some_inj] at hjudged
    rw [← hjudged, Option.isSome_iff_exists]
    simp
  success := by
    have hsuccess := h.success_iff d
    rw [hown, hshare] at hsuccess
    simpa using hsuccess
  proper c hc := by
    subst hc
    obtain ⟨hseen', hcheck⟩ := hv.view.committed d c hcommitments
    obtain ⟨hlength, hproper⟩ := View.checkCommitments_eq_ok.1 hcheck
    rw [hseen, Option.some_inj] at hseen'
    exact ⟨hseen', hlength, fun x hx => (hproper x hx).1⟩
  opens pair hpair := by
    subst hpair
    obtain ⟨hindex, c, hc, hcorrect⟩ := h.opens d pair hshare
    rw [hcommitments, Option.some_inj] at hc
    exact ⟨c, hc, hindex, (of_decide_eq_true hcorrect).symm⟩

end Shareholder

variable [Suite F G] [NatCast F] [Zero F] [One F] [Add F] [Sub F] [Mul F] [Inv F] [SMul F F] [Zero G] [Add G]
  [SMul F G] [Wire F] [Wire G] [Sampled F] [DecidableEq F] [DecidableEq G]

variable {s₀ : Shareholder F G}

/-- **The share table invariant.** Every log can be read, and whatever log a shareholder has read, and whether and
whenever it has dealt meanwhile, each dealer has an entry in its four tables, and the entries are in step: it has judged
exactly the dealers it has seen, it holds a share of exactly those it judges a success, it has commitments only of
dealers it has seen, which are `k` points other than the identity, and a share it holds is its own and opens the
commitments it has. -/
theorem tables_in_step (h₀ : s₀.Fresh) (log : List Envelope) : (∃ s out, History s₀ log s out) ∧
    ∀ s out, History s₀ log s out → ∀ d < s₀.params.n,
      ∃ own seen commitments share, s.ownStatuses[d]? = some own ∧ s.view.seen[d]? = some seen ∧
        s.view.commitments[d]? = some commitments ∧ s.shares[d]? = some share ∧
          Shareholder.InStep s₀.index s₀.params.k own seen commitments share := by
  refine ⟨History.exists_of_log h₀.valid log, fun s out hs d hd => ?_⟩
  have hvalid := hs.valid h₀.valid
  rw [← hs.params_eq h₀.valid] at hd
  obtain ⟨own, hown⟩ : ∃ own, s.ownStatuses[d]? = some own :=
    ⟨_, List.getElem?_eq_getElem (hvalid.ownStatuses_length.symm ▸ hd)⟩
  obtain ⟨seen, hseen⟩ : ∃ seen, s.view.seen[d]? = some seen :=
    ⟨_, List.getElem?_eq_getElem (hvalid.view.seen_length.symm ▸ hd)⟩
  obtain ⟨commitments, hcommitments⟩ : ∃ commitments, s.view.commitments[d]? = some commitments :=
    ⟨_, List.getElem?_eq_getElem (hvalid.view.commitments_length.symm ▸ hd)⟩
  obtain ⟨share, hshare⟩ : ∃ share, s.shares[d]? = some share :=
    ⟨_, List.getElem?_eq_getElem (hvalid.shares_length.symm ▸ hd)⟩
  have hstep := (hs.sound h₀).inStep hvalid hown hseen hcommitments hshare
  rw [hs.index_eq h₀.valid, hs.params_eq h₀.valid] at hstep
  exact ⟨own, seen, commitments, share, hown, hseen, hcommitments, hshare, hstep⟩

/-- five shareholders that have come to rest: one judges itself a success, so it has its own share, and this opens the two
points it has committed to -/
theorem tables_in_step_five : ∃ (log : List Envelope) (s : Shareholder (ZMod 11) (ZMod 11))
    (out : List (Payload (ZMod 11) (ZMod 11))) (c : Poly (ZMod 11)) (pair : SharePair (ZMod 11)),
      History (Cast.five.start 1) log s out ∧ s.ownStatuses[1]? = some (some .success) ∧
        s.view.seen[1]? = some true ∧ s.view.commitments[1]? = some (some c) ∧ c.length = 2 ∧ (∀ x ∈ c.coeffs, x ≠ 0) ∧
          s.shares[1]? = some (some pair) ∧ pair.index = 1 ∧
            pedersen pair.value pair.blinding = c.eval (xCoordinate 1 : ZMod 11) := by
  have hready := Cast.ready_five
  have hn : Cast.five.params.n ≤ 11 := by
    rw [Cast.params_five]
    decide
  obtain ⟨ms, σ, posts, hms, hmoves, hruns, hq⟩ :=
    hready.runs_start.exists_quiescent hready.toStaffed (injOn_xCoordinate 11 hn)
  obtain ⟨r, hr, -, hindex⟩ := hruns.exists_reader Cast.one_lt_five
  obtain ⟨out, hs⟩ := hready.exists_history (hready.faithful hms hmoves) hr
  have hholds := hruns.holds hq hr
  have hone : (1 : Index) ∈ senders .contribution posts := hruns.dealt hq (Cast.mem_honest.2 ⟨Cast.one_lt_five, rfl⟩)
  have hsuccess : r.shareholder.ownStatuses[1]? = some (some .success) := by
    rw [hholds.ownStatuses, Cast.params_five]
    simp [Params.dealers, hone]
  rw [hindex] at hs
  obtain ⟨-, hstep⟩ := tables_in_step Cast.fresh_five (σ.board.entries.take r.cursor)
  obtain ⟨own, seen, commitments, share, hown, hseen, hcommitments, hshare, hagree⟩ :=
    hstep r.shareholder out hs 1 (by rw [Cast.params_start_five]; decide)
  obtain rfl := Option.some.inj (hown.symm.trans hsuccess)
  obtain ⟨pair, rfl⟩ := hagree.success.1 rfl
  obtain ⟨c, rfl, hown', hopens⟩ := hagree.opens pair rfl
  obtain ⟨rfl, hlength, hproper⟩ := hagree.proper c rfl
  rw [Cast.params_start_five] at hlength
  exact ⟨_, r.shareholder, out, c, pair, hs, hsuccess, hseen, hcommitments, hlength, hproper, hshare, hown', hopens⟩

end DistributedKey
