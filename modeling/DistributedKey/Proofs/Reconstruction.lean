/-
The public key is never stuck: whatever a shareholder is sent, R leaves one proven member of QUAL out, U are senders that
proved shares over R, and the `k`-th of them brings the key.

A reconstruction that failed could not be made up for, because U only grows and it is tried once, at `k` senders. The
stages of the view (`View.Staged`) give it all it asks for, and interpolation is total on distinct x-coordinates, so it
does not fail. Nothing is assumed of the messages: the terms and the shares may be any points.

- `Delivered.notices`: what a delivery reports is a violation, a missing share, or comes from the view.
- `reconstruction_never_stuck`: the invariant of every reachable state, and what any further entry does to it.
-/
import DistributedKey.Proofs.View.Staged
import DistributedKey.Proofs.Silent.Uniform

namespace DistributedKey

open Checked

variable {F G : Type}

section

variable [Suite F G] [NatCast F] [Zero F] [One F] [Add F] [Sub F] [Mul F] [Inv F] [SMul F F] [Zero G] [Add G]
  [SMul F G] [Wire F] [Wire G] [Sampled F] [DecidableEq F] [DecidableEq G]

/-- where the view has nothing to report, only violations and missing shares are reported -/
theorem Shareholder.Delivered.notices {s : Shareholder F G} {e : Envelope} {r : Shareholder.Response F G}
    (h : Shareholder.Delivered s e r)
    (hview : ∀ (payload : Payload F G) (view : View G) (notices : List Notice),
      s.view.step s.params e.sender payload = .ok (view, notices) → notices = []) :
    ∀ notice ∈ r.notices, notice = .missingShareOfR ∨ ∃ cause, notice = .violated cause := by
  intro notice hnotice
  cases h with
  | refused cause hno => exact Or.inr ⟨cause, List.mem_singleton.1 hnotice⟩
  | accepted hpayload hsender hstep hreact =>
    rw [hview _ _ _ hstep, List.nil_append] at hnotice
    exact Shareholder.react_notices hreact notice hnotice

end

namespace View

variable {p : Params} {v : View G}

/-- R, once frozen, is QUAL without one member whose constant term is there -/
theorem Staged.rSet_eq [Suite F G] [Zero G] [DecidableEq G] (h : Staged v) (hv : Valid p v) {r : IndexSet}
    (hr : v.rSet = some r) : ∃ q d y, v.qual = some q ∧ q.size = p.f + 1 ∧ r.size = p.f ∧ d ∉ r ∧
      (∀ e, e ∈ q ↔ e = d ∨ e ∈ r) ∧ v.publicTerms[d.toNat]? = some (some y) := by
  obtain ⟨q, d, hq, hd, hproved, rfl⟩ := h.outside r hr
  obtain ⟨-, y, hy⟩ := h.proved d hproved
  have hsize := hv.qual_size hq
  have hfilter := IndexSet.size_filter_ne hd
  refine ⟨q, d, y, hq, hsize, by omega, by simp, fun e => ?_, hy⟩
  by_cases hed : e = d
  · simp [hed, hd]
  · simp [hed]

end View

variable [Field F] [AddCommGroup G] [Module F G] [Suite F G] [Wire F] [Wire G] [Sampled F] [DecidableEq F]
  [DecidableEq G]

/-- **Key reconstruction is never stuck.** In every state that a shareholder can reach: a frozen R is QUAL, of `f + 1`
members, without one whose constant term is there; each sender in U has proved shares of exactly the members of R; U has
at most `k` senders, and the public key is there exactly if it has `k`. Every further entry is delivered, no
reconstruction fails on it, and it brings the key exactly if it is the `k`-th accepted bulk proof. -/
theorem reconstruction_never_stuck (r : Nat) [CharP F r] {s₀ s : Shareholder F G} (hr : s₀.params.n ≤ r)
    (h₀ : s₀.Fresh) {log : List Envelope} {out : List (Payload F G)} (h : History s₀ log s out) :
    (∀ R, s.view.rSet = some R → ∃ q d y, s.view.qual = some q ∧ q.size = s₀.params.f + 1 ∧ R.size = s₀.params.f ∧
      d ∉ R ∧ (∀ e, e ∈ q ↔ e = d ∨ e ∈ R) ∧ s.view.publicTerms[d.toNat]? = some (some y)) ∧
    (∀ j ∈ s.view.uSet, ∃ R m, s.view.rSet = some R ∧ s.view.provenShares[j.toNat]? = some (some m) ∧
      m.keys = R.elems) ∧
    s.view.uSet.size ≤ s₀.params.k ∧ (s.view.publicKey.isSome ↔ s.view.uSet.size = s₀.params.k) ∧
    ∀ e : Envelope, ∃ response, s.deliver e = some response ∧
      (∀ notice ∈ response.notices, notice ≠ .contributionMissing ∧ ∀ cause, notice ≠ .interpolationFailed cause) ∧
      (s.view.publicKey = none ∧ response.shareholder.view.publicKey.isSome ↔
        ∃ b : BulkProof F G, e.payload = .ok (.bulkProof b) ∧ e.sender ∉ s.view.uSet ∧
          response.shareholder.view.uSet = s.view.uSet.insert e.sender ∧
          response.shareholder.view.uSet.size = s₀.params.k) := by
  have hinj := injOn_xCoordinate (F := F) r hr
  have hparams := h.params_eq h₀.valid
  have hvalid : s.view.Valid s₀.params := hparams ▸ (h.valid h₀.valid).view
  have hstaged : s.view.Staged := by
    rw [h.view_eq_ofLog h₀]
    exact View.staged_ofLog s₀.params log
  have hcounted : s.view.Counted s₀.params := by
    rw [h.view_eq_ofLog h₀]
    exact View.counted_ofLog hinj h₀.valid.admissible log
  refine ⟨fun R hR => hstaged.rSet_eq hvalid hR, hstaged.shares, hcounted.size_le, hcounted.isSome_iff, fun e => ?_⟩
  obtain ⟨response, hdeliver, hdelivered⟩ := (h.valid h₀.valid).delivered e
  refine ⟨response, hdeliver, fun notice hnotice => ?_, ?_⟩
  · have hquiet : ∀ (payload : Payload F G) (view : View G) (notices : List Notice),
        s.view.step s.params e.sender payload = .ok (view, notices) → notices = [] := by
      intro payload view notices hstep
      rw [hparams] at hstep
      exact (View.counted_step hinj hvalid hstaged hcounted hstep).2
    rcases hdelivered.notices hquiet notice hnotice with rfl | ⟨cause, rfl⟩ <;> simp
  · rw [hdelivered.view, hparams]
    exact hcounted.key_after_iff hinj hvalid hstaged e

/-- five shareholders that have come to rest: one member of QUAL is in R, and two senders brought the key -/
theorem reconstruction_never_stuck_five : ∃ (log : List Envelope) (s : Shareholder (ZMod 11) (ZMod 11))
    (out : List (Payload (ZMod 11) (ZMod 11))) (R : IndexSet), History (Cast.five.start 1) log s out ∧
      s.view.publicKey.isSome ∧ s.view.uSet.size = 2 ∧ s.view.rSet = some R ∧ R.size = 1 := by
  obtain ⟨posts, s, out, -, -, hhistory, -, hkey, -⟩ := Cast.five_at_rest
  obtain ⟨hR, hshares, -, hcount, -⟩ := reconstruction_never_stuck 11 Cast.n_start_five_le Cast.fresh_five hhistory
  rw [Cast.params_start_five] at hR hcount
  have hsize : s.view.uSet.size = 2 := hcount.1 hkey
  obtain ⟨j, hj⟩ := List.exists_mem_of_length_pos (l := s.view.uSet.elems) (by
    rw [show s.view.uSet.elems.length = 2 from hsize]
    decide)
  obtain ⟨R, m, hrSet, -⟩ := hshares j hj
  obtain ⟨q, d, y, -, -, hRsize, -⟩ := hR R hrSet
  exact ⟨posts.map Post.seal, s, out, R, hhistory, hkey, hsize, hrSet, hRsize⟩

end DistributedKey
