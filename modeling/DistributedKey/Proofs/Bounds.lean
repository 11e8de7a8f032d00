/-
No envelope crashes a shareholder: whatever a handler looks up is there, and whatever it subtracts can be.

The indices that a handler uses come from the sender, from fields of the message, and from the sets that were derived
before. `InBounds` says of which tables they are below the length, and where a number is subtracted or a constant term
is taken.

- `Valid.inBounds`: it follows from the invariant of a shareholder.
- `never_crashes`: so it holds in every state that a log can lead to, for whatever group `create` accepts, and every
  further envelope is handled.
-/
import DistributedKey.Proofs.Rejection

namespace DistributedKey

variable {F G : Type}

namespace Shareholder

/-- what the handlers of a shareholder look up, subtract and take the constant term of -/
structure InBounds (p : Params) (s : Shareholder F G) : Prop where
  index_lt : s.index.toNat < p.n
  seen_length : s.view.seen.length = p.n
  commitments_length : s.view.commitments.length = p.n
  shares_length : s.shares.length = p.n
  ownStatuses_length : s.ownStatuses.length = p.n
  publicTerms_length : s.view.publicTerms.length = p.n
  provenShares_length : s.view.provenShares.length = p.n
  rows_length : s.view.verdicts.rows.length = p.n
  row_length : ∀ cells, some cells ∈ s.view.verdicts.rows → cells.length = p.n
  qual_lt : ∀ q, s.view.qual = some q → ∀ d ∈ q, d.toNat < p.n
  rSet_lt : ∀ r, s.view.rSet = some r → ∀ d ∈ r, d.toNat < p.n
  uSet_lt : ∀ j ∈ s.view.uSet, j.toNat < p.n
  /-- `n - f` -/
  faults_le : p.f ≤ p.n
  /-- `|QUAL| - f` -/
  faults_le_qual : ∀ q, s.view.qual = some q → p.f ≤ q.size
  f1_constant : s.f1.constant?.isSome
  f2_constant : s.f2.constant?.isSome
  commitments_constant : ∀ c, some c ∈ s.view.commitments → c.constant?.isSome

section

variable [Suite F G] [Zero G] [DecidableEq G]

theorem Valid.inBounds {s : Shareholder F G} (h : s.Valid) : s.InBounds s.params where
  index_lt := h.index_lt
  seen_length := h.view.seen_length
  commitments_length := h.view.commitments_length
  shares_length := h.shares_length
  ownStatuses_length := h.ownStatuses_length
  publicTerms_length := h.view.publicTerms_length
  provenShares_length := h.view.provenShares_length
  rows_length := h.view.rows_length
  row_length cells hcells := by
    obtain ⟨j, hj⟩ := List.mem_iff_getElem?.1 hcells
    exact h.view.row_length j cells (StatusMatrix.row?_eq_some.2 hj)
  qual_lt _ hq _ hd := h.qual_lt hq _ hd
  rSet_lt _ hr _ hd := h.rSet_lt hr _ hd
  uSet_lt := h.view.uSet_lt
  faults_le := by
    have hbound := h.admissible.bound
    omega
  faults_le_qual q hq := by
    rw [h.view.qual_size hq]
    exact Nat.le_succ _
  f1_constant := constant?_isSome h.f1_length (Nat.zero_lt_of_lt h.admissible.faults_lt)
  f2_constant := constant?_isSome h.f2_length (Nat.zero_lt_of_lt h.admissible.faults_lt)
  commitments_constant c hc := by
    obtain ⟨d, hd⟩ := List.mem_iff_getElem?.1 hc
    exact h.view.constant_isSome h.admissible hd

end

variable [Suite F G] [NatCast F] [Zero F] [One F] [Add F] [Sub F] [Mul F] [Inv F] [SMul F F] [Zero G] [Add G]
  [SMul F G] [Wire F] [Wire G] [Sampled F] [DecidableEq F] [DecidableEq G]

/-- only a crash leaves a delivery without an answer -/
theorem handle_ne_crash {s : Shareholder F G} {e : Envelope} {r : Response F G} (h : s.deliver e = some r) :
    s.handle e ≠ .error .crash := by
  intro hcrash
  rw [deliver, hcrash] at h
  cases h

end Shareholder

variable [Suite F G] [NatCast F] [Zero F] [One F] [Add F] [Sub F] [Mul F] [Inv F] [SMul F F] [Zero G] [Add G]
  [SMul F G] [Wire F] [Wire G] [Sampled F] [DecidableEq F] [DecidableEq G]

/-- **No envelope crashes a shareholder.** Take any group, whatever its participants are numbered and whatever their keys
are, and an index, for which a shareholder can be made. It can read every log. In every state that it then is in, whether
and whenever it has dealt, all it looks up is there and all it subtracts can be, and it handles every further envelope,
of any sender, opcode and body, without a crash. -/
theorem never_crashes {index : Index} {privateKey : F} {group : Group G} {behavior : Behavior} {rng : Random}
    {s₀ : Shareholder F G} (h : Shareholder.create index privateKey group behavior rng = .ok s₀) (log : List Envelope) :
    (∃ s out, History s₀ log s out) ∧ ∀ s out, History s₀ log s out → s.InBounds group.params ∧
      ∀ e, s.handle e ≠ .error .crash ∧ ∃ r, s.deliver e = some r ∧ r.shareholder.InBounds group.params := by
  obtain ⟨hfresh, -, -, hgroup, -⟩ := Shareholder.fresh_create h
  refine ⟨History.exists_of_log hfresh.valid log, fun s out hs => ?_⟩
  have hbounds : ∀ {later t out'}, History s₀ later t out' → t.InBounds group.params := by
    intro later t out' ht
    have hinBounds := (ht.valid hfresh.valid).inBounds
    rwa [ht.params_eq hfresh.valid, Shareholder.params, hgroup] at hinBounds
  refine ⟨hbounds hs, fun e => ?_⟩
  obtain ⟨r, hr, -⟩ := (hs.valid hfresh.valid).delivered e
  exact ⟨Shareholder.handle_ne_crash hr, r, hr, hbounds (hs.read hr)⟩

/-- a rebuttal that nobody has asked for, and a bulk proof of nothing -/
def strayMessages : List (Payload (ZMod 11) (ZMod 11)) := [.rebuttal ⟨3, ⟨3, 1, 0⟩⟩, .bulkProof ⟨.empty⟩]

/-- a shareholder that has read all that five of them wrote until they came to rest, so that its tables are filled, QUAL is
frozen and the key known, and that then reads either of these from shareholder 2 -/
theorem never_crashes_five : ∃ (s₀ s : Shareholder (ZMod 11) (ZMod 11)) (log : List Envelope)
    (out : List (Payload (ZMod 11) (ZMod 11))),
      Shareholder.create 1 1 Cast.five.group .honest (.ofSeed []) = .ok s₀ ∧ History s₀ log s out ∧
        s.view.qual.isSome ∧ s.view.publicKey.isSome ∧ ∀ y ∈ strayMessages,
          (y.toEnvelope 2).payload = .ok y ∧
            ∃ r, s.deliver (y.toEnvelope 2) = some r ∧ r.shareholder.InBounds ⟨5, 2, 1⟩ := by
  obtain ⟨s₀, h⟩ : ∃ s₀ : Shareholder (ZMod 11) (ZMod 11),
      Shareholder.create 1 1 Cast.five.group .honest (.ofSeed []) = .ok s₀ :=
    Shareholder.exists_create _ _ (Cast.validate_uniformGroup rfl) (Cast.key_uniformGroup (by decide))
  obtain ⟨hfresh, -, -, hgroup, -⟩ := Shareholder.fresh_create h
  have hparams : s₀.params = (Cast.five.start 1).params := congrArg Group.params hgroup
  obtain ⟨posts, t, out', -, -, ht, hqual, hkey, -⟩ := Cast.five_at_rest
  obtain ⟨⟨s, out, hs⟩, hall⟩ := never_crashes h (posts.map Post.seal)
  obtain ⟨-, hnext⟩ := hall s out hs
  -- its view is that of a shareholder that was there
  have hview : s.view = t.view := by
    rw [hs.view_eq_ofLog hfresh, ht.view_eq_ofLog Cast.fresh_five, hparams]
  refine ⟨s₀, s, _, out, h, hs, hview ▸ hqual, hview ▸ hkey, fun y hy => ⟨?_, ?_⟩⟩
  · refine Payload.payload_toEnvelope ?_ 2
    rcases List.mem_pair.1 hy with rfl | rfl
    · trivial
    · exact Payload.fits_bulkProof _
  · obtain ⟨-, r, hr, hbounds⟩ := hnext (y.toEnvelope 2)
    have hgroup : Cast.five.group.params = ⟨5, 2, 1⟩ := Cast.params_five
    exact ⟨r, hr, hgroup ▸ hbounds⟩

end DistributedKey
