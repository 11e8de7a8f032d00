/-
What a shareholder that has read an orderly log keeps to itself, and what it answers.

- `Holds posts s`: the judgments and shares of `s` are those of the dealers that have dealt, its vector is sent once there
  are enough of them, and its final share is there once QUAL is frozen.
- `Replies posts x out`: `out` is the message that the shareholder has come to owe by reading `x`, if there is one.
- `Holds.delivered`: reading one more post keeps the first and gives the second.
-/
import DistributedKey.Proofs.History
import DistributedKey.Proofs.Opening
import DistributedKey.Proofs.Silent.View

namespace DistributedKey

open Checked

variable {F G : Type}
variable [Field F]

namespace Shareholder

variable {shares : List (Option (SharePair F))} {held : Index → SharePair F} {l : List Index}

theorem sumShares_eq_ok (h : ∀ d ∈ l, shares[d.toNat]? = some (some (held d))) (a b : F) :
    sumShares shares l a b =
      .ok (some (a + (l.map fun d => (held d).value).sum, b + (l.map fun d => (held d).blinding).sum)) := by
  induction l generalizing a b with
  | nil => simp [sumShares, pure, Except.pure]
  | cons d l ih =>
    have hentry : entry shares d = .ok (some (held d)) := entry_eq_ok.2 (h d List.mem_cons_self)
    rw [sumShares, hentry, List.map_cons, List.map_cons, List.sum_cons, List.sum_cons, ← add_assoc, ← add_assoc]
    exact ih (fun e he => h e (List.mem_cons_of_mem _ he)) _ _

variable [AddCommGroup G] [Module F G] [Suite F G] [Wire G] [Sampled F] [DecidableEq F] [DecidableEq G]

/-- who holds all the shares proves them all -/
theorem proveShares_eq_ok (h : ∀ d ∈ l, shares[d.toNat]? = some (some (held d))) (rng : Random) :
    ∃ (proofs : List (Index × Opening F G)) (rng' : Random), proveShares shares l rng = .ok (some proofs, rng') ∧
      proofs.map (·.1) = l ∧ ∀ e ∈ proofs, Cast.Proves e.2 (held e.1).value (held e.1).blinding := by
  induction l generalizing rng with
  | nil => exact ⟨[], rng, rfl, rfl, fun e he => absurd he List.not_mem_nil⟩
  | cons d l ih =>
    have hentry : entry shares d = .ok (some (held d)) := entry_eq_ok.2 (h d List.mem_cons_self)
    set π := Opening.prove (G := G) (held d).value (held d).blinding rng with hπ
    obtain ⟨proofs, rng', hok, hkeys, hproves⟩ := ih (fun e he => h e (List.mem_cons_of_mem _ he)) π.2
    refine ⟨(d, π.1) :: proofs, rng', ?_, by rw [List.map_cons, hkeys], fun e he => ?_⟩
    · rw [proveShares, hentry]
      simp only [bind, Except.bind, ← hπ, hok]
      rfl
    · rcases List.mem_cons.1 he with rfl | he
      · exact ⟨Opening.publicA_prove _ _ rng, Opening.verify_prove _ _ rng⟩
      · exact hproves e he

end Shareholder

namespace Cast

variable [AddCommGroup G] [Module F G] [Suite F G] [DecidableEq G]

/-- the final share of shareholder `i`: what the dealers of QUAL dealt to it, summed up -/
def finalPair (C : Cast F G) (posts : List (Post F G)) (i : Index) : SharePair F where
  index := i
  value := ((C.chosen posts).elems.map fun d => (C.pair d i).value).sum
  blinding := ((C.chosen posts).elems.map fun d => (C.pair d i).blinding).sum

structure Holds (C : Cast F G) (i : Index) (posts : List (Post F G)) (s : Shareholder F G) : Prop where
  identity : s.identity = (C.start i).identity
  valid : s.Valid
  shows : C.Shows posts s.view
  ownStatuses : s.ownStatuses =
    C.params.dealers.map fun d => if d ∈ senders .contribution posts then some .success else none
  shares : s.shares = C.params.dealers.map fun d => if d ∈ senders .contribution posts then some (C.pair d i) else none
  vectorSent : s.vectorSent = true ↔ C.Stocked posts
  finalShare : s.finalShare = if C.Frozen posts then some (C.finalPair posts i) else none

/-- the kind of the messages that can come to be due by a message of a kind -/
def wakes : Opcode → Option Opcode
  | .contribution => some .verification
  | .verification => some .proof
  | .rebuttal => none
  | .proof => some .bulkProof
  | .bulkProof => none

section

variable {C : Cast F G} {posts : List (Post F G)} {s : Shareholder F G} {i : Index}

theorem Staffed.holds_start (hC : C.Staffed) (hi : i.toNat < C.params.n) : C.Holds i [] (C.start i) where
  identity := rfl
  valid := (hC.fresh i hi).valid
  shows := by
    rw [(hC.fresh i hi).view, hC.params_eq hi]
    exact shows_initial hC.admissible
  ownStatuses := by
    rw [(hC.fresh i hi).ownStatuses, hC.params_eq hi, Params.replicate_eq_map_dealers]
    simp
  shares := by
    rw [(hC.fresh i hi).shares, hC.params_eq hi, Params.replicate_eq_map_dealers]
    simp
  vectorSent := by
    have := hC.admissible.faults_lt
    have := hC.admissible.bound
    rw [(hC.fresh i hi).vectorSent, Stocked, senders_nil, List.length_nil]
    exact ⟨fun h => absurd h Bool.false_ne_true, fun h => by omega⟩
  finalShare := by
    rw [(hC.fresh i hi).finalShare, if_neg (by simp [Frozen])]

theorem Holds.params_eq (h : C.Holds i posts s) (hC : C.Staffed) (hi : i.toNat < C.params.n) : s.params = C.params :=
  (Shareholder.params_eq_of_identity h.identity).trans (hC.params_eq hi)

theorem Holds.index_eq (h : C.Holds i posts s) (hC : C.Staffed) (hi : i.toNat < C.params.n) : s.index = i :=
  (Shareholder.index_eq_of_identity h.identity).trans (hC.index_eq i hi)

/-- nobody finds fault with a dealer in the vector of an orderly log -/
theorem Holds.rebuttalsTo_eq_nil (h : C.Holds i posts s) (hC : C.Staffed) (hi : i.toNat < C.params.n) (v : View G)
    {own : Option Status} (hown : (C.vector posts)[s.index.toNat]? = some own) :
    Shareholder.rebuttalsTo { s with view := v } j own = [] := by
  rw [h.index_eq hC hi, vector_getElem hi] at hown
  obtain rfl := Option.some.inj hown
  rw [Shareholder.rebuttalsTo, if_neg]
  split_ifs <;> simp

end

variable [Wire F] [Wire G] [DecidableEq F]

/-- the answer to a post: the one message that has come to be due, if there is one -/
structure Replies (C : Cast F G) (i : Index) (posts : List (Post F G)) (x : Post F G) (out : List (Payload F G)) :
    Prop where
  single : out.length ≤ 1
  meets : ∀ y ∈ out, C.Meets (posts ++ [x]) i y
  due : ∀ y ∈ out, ¬ C.Due posts i y.opcode ∧ C.Due (posts ++ [x]) i y.opcode
  complete : ∀ kind, C.Due (posts ++ [x]) i kind → C.Due posts i kind ∨ ∃ y ∈ out, y.opcode = kind

variable {C : Cast F G} {posts : List (Post F G)} {x : Post F G} {s : Shareholder F G} {d i j : Index}

/-- a share of every member of QUAL is held -/
theorem Holds.share_of_chosen (h : C.Holds i posts s) (ho : C.Orderly posts) (hd : d ∈ C.chosen posts) :
    s.shares[d.toNat]? = some (some (C.pair d i)) := by
  have hposted := mem_senders_of_mem_dealt (mem_dealt_of_mem_chosen hd)
  rw [h.shares, Params.getElem?_map_dealers _ (lt_of_mem_honest (ho.honest hposted)), if_pos hposted]

/-- as many successes as dealers -/
theorem Orderly.count_success (h : C.Orderly posts) (hC : C.Staffed) :
    (C.params.dealers.map fun d => if d ∈ senders .contribution posts then some Status.success else none).count
      (some .success) = (senders .contribution posts).length := by
  have hfilter : (C.params.dealers.filter (· ∈ senders .contribution posts)).Perm (senders .contribution posts) := by
    refine (List.perm_ext_iff_of_nodup (hC.indices.filter _) (h.nodup _)).2 fun d => ?_
    rw [List.mem_filter, Params.mem_dealers]
    exact ⟨fun hd => by simpa using hd.2, fun hd => ⟨lt_of_mem_honest (h.honest hd), by simpa using hd⟩⟩
  rw [← hfilter.length_eq, List.count, List.countP_map, List.countP_eq_length_filter]
  congr 1
  refine List.filter_congr fun d _ => ?_
  by_cases hd : d ∈ senders .contribution posts <;> simp [hd]

/-- the final share stays as it is while no vector comes in -/
theorem Holds.finalShare_concat (h : C.Holds i posts s) (ho : C.Orderly posts) (hx : x.2.opcode ≠ .verification) :
    s.finalShare = if C.Frozen (posts ++ [x]) then some (C.finalPair (posts ++ [x]) i) else none := by
  rw [h.finalShare]
  by_cases hf : C.Frozen posts
  · rw [if_pos hf, if_pos ((frozen_concat_of_ne hx).2 hf), finalPair, finalPair,
      (ho.stocked_of_frozen hf).chosen_eq (List.prefix_append _ _)]
  · rw [if_neg hf, if_neg fun hf' => hf ((frozen_concat_of_ne hx).1 hf')]

/-- one more post makes nothing due but the messages of the kind that its own kind wakes -/
theorem Orderly.due_concat (ho : C.Orderly (posts ++ [x])) {kind : Opcode} (hkind : wakes x.2.opcode ≠ some kind)
    (hdue : C.Due (posts ++ [x]) i kind) : C.Due posts i kind := by
  have hother : ∀ k, wakes k = some kind → x.2.opcode ≠ k := fun k hk heq => hkind (heq ▸ hk)
  cases kind with
  | contribution => exact hdue
  | verification => exact (stocked_concat_of_ne (hother .contribution rfl)).1 hdue
  | rebuttal => exact hdue
  | proof =>
    obtain ⟨hf, hchosen⟩ := hdue
    have hf' : C.Frozen posts := (frozen_concat_of_ne (hother .verification rfl)).1 hf
    exact ⟨hf', (ho.of_append.stocked_of_frozen hf').chosen_eq (List.prefix_append posts [x]) ▸ hchosen⟩
  | bulkProof =>
    intro hnil
    refine hdue ?_
    rw [senders_concat_of_ne (hother .proof rfl), hnil]

/-- nothing is answered where nothing has come to be due -/
theorem Orderly.replies_nil (ho : C.Orderly (posts ++ [x]))
    (h : ∀ kind, wakes x.2.opcode = some kind → C.Due (posts ++ [x]) i kind → C.Due posts i kind) :
    C.Replies i posts x [] where
  single := Nat.zero_le _
  meets _ hy := absurd hy List.not_mem_nil
  due _ hy := absurd hy List.not_mem_nil
  complete kind hdue := by
    by_cases hwakes : wakes x.2.opcode = some kind
    · exact Or.inl (h kind hwakes hdue)
    · exact Or.inl (ho.due_concat hwakes hdue)

theorem Orderly.replies_singleton (ho : C.Orderly (posts ++ [x])) {y : Payload F G}
    (hwakes : wakes x.2.opcode = some y.opcode) (hmeets : C.Meets (posts ++ [x]) i y)
    (hnew : ¬ C.Due posts i y.opcode) (hdue : C.Due (posts ++ [x]) i y.opcode) : C.Replies i posts x [y] where
  single := le_rfl
  meets z hz := by
    obtain rfl := List.mem_singleton.1 hz
    exact hmeets
  due z hz := by
    obtain rfl := List.mem_singleton.1 hz
    exact ⟨hnew, hdue⟩
  complete kind hkind := by
    by_cases hy : y.opcode = kind
    · exact Or.inr ⟨y, List.mem_singleton_self y, hy⟩
    · exact Or.inl (ho.due_concat (fun heq => hy (Option.some.inj (hwakes.symm.trans heq))) hkind)

omit [DecidableEq F] in
/-- the share in an orderly contribution is accepted -/
theorem Holds.judge (h : C.Holds i posts s) (hC : C.Staffed) (hi : i.toNat < C.params.n) (hd : d ∈ C.honest)
    {c : Contribution G} (hdeals : C.Deals d c) : s.judge c = .ok (C.pair d i) := by
  have hcheck : View.checkCommitments s.params.k c.commitments = .ok () := by
    rw [h.params_eq hC hi, hdeals.commitments]
    exact hC.proper hd
  have hindex : s.index = (C.pair d i).index := h.index_eq hC hi
  have hcorrect : View.shareCorrect (C.pair d i) s.index c.commitments = true := by
    rw [View.shareCorrect, hdeals.commitments, eval_commitments hd, h.index_eq hC hi]
    exact decide_eq_true rfl
  rw [Shareholder.judge, hdeals.opens i hi s h.identity]
  simp only [hcheck, hindex, bind, Except.bind, ne_eq, not_true_eq_false, ↓reduceIte]
  rw [← hindex, hcorrect]
  rfl

/-- the final share, when QUAL is frozen by a vector -/
theorem Holds.tryFinalShare (h : C.Holds i posts s) (hC : C.Staffed) (hi : i.toNat < C.params.n)
    (ho : C.Orderly posts) (hstocked : C.Stocked posts) (hnot : ¬ C.Frozen posts) (hf : C.Frozen (posts ++ [x]))
    {v : View G} (hv : C.Shows (posts ++ [x]) v) {s' : Shareholder F G}
    (hok : Shareholder.tryFinalShare { s with view := v } = .ok s') :
    s' = { s with view := v, finalShare := some (C.finalPair (posts ++ [x]) i) } := by
  have hchosen := hstocked.chosen_eq (List.prefix_append posts [x])
  have hnone : s.finalShare = none := by rw [h.finalShare, if_neg hnot]
  have hqual : v.qual = some (C.chosen (posts ++ [x])) := by rw [hv.qual, if_pos hf]
  have hsum := Shareholder.sumShares_eq_ok (l := (C.chosen (posts ++ [x])).elems)
    (fun d hd => h.share_of_chosen ho (hchosen ▸ hd)) 0 0
  rw [zero_add, zero_add] at hsum
  rcases Shareholder.tryFinalShare_cases hok with ⟨-, hmissing⟩ | ⟨q, value, blinding, -, hq, hsum', rfl⟩
  · have hcontra := hmissing hnone _ hqual
    cases hcontra.symm.trans hsum
  · have hq : v.qual = some q := hq
    obtain rfl := Option.some.inj (hqual.symm.trans hq)
    obtain ⟨rfl, rfl⟩ := Prod.mk.inj (Option.some.inj (Except.ok.inj (hsum.symm.trans hsum')))
    rw [h.index_eq hC hi]
    rfl

variable [Sampled F]

omit [DecidableEq F] in
theorem Holds.contribute (h : C.Holds i posts s) : C.Holds i posts s.contribute.2 where
  identity := (Shareholder.contribute_identity s).trans h.identity
  valid := h.valid.contribute
  shows := (Shareholder.contribute_view s).symm ▸ h.shows
  ownStatuses := (Shareholder.contribute_ownStatuses s).trans h.ownStatuses
  shares := (Shareholder.contribute_shares s).trans h.shares
  vectorSent := (Shareholder.contribute_vectorSent s).symm ▸ h.vectorSent
  finalShare := (Shareholder.contribute_finalShare s).trans h.finalShare

/-! ## reading one more post -/

omit [DecidableEq F] in
/-- what a reaction leaves, but for the tables that it is about -/
theorem Holds.of_react (h : C.Holds i posts s) (hC : C.Staffed) (hi : i.toNat < C.params.n) {y : Payload F G} {v : View G}
    {r : Shareholder.Response F G} (hv : C.Shows (posts ++ [x]) v)
    (hreact : Shareholder.react { s with view := v } s.view j y = .ok r)
    (hown : r.shareholder.ownStatuses =
      C.params.dealers.map fun d => if d ∈ senders .contribution (posts ++ [x]) then some .success else none)
    (hshares : r.shareholder.shares =
      C.params.dealers.map fun d => if d ∈ senders .contribution (posts ++ [x]) then some (C.pair d i) else none)
    (hsent : r.shareholder.vectorSent = true ↔ C.Stocked (posts ++ [x]))
    (hfinal : r.shareholder.finalShare = if C.Frozen (posts ++ [x]) then some (C.finalPair (posts ++ [x]) i) else none) :
    C.Holds i (posts ++ [x]) r.shareholder where
  identity := by
    have hidentity := Shareholder.react_identity hreact
    exact hidentity.trans h.identity
  valid := by
    have hvalid : v.Valid s.params := (h.params_eq hC hi).symm ▸ hv.valid
    exact (h.valid.withView hvalid).react hreact
  shows := (Shareholder.react_view hreact).symm ▸ hv
  ownStatuses := hown
  shares := hshares
  vectorSent := hsent
  finalShare := hfinal

theorem Holds.onContribution (h : C.Holds i posts s) (hC : C.Staffed) (hi : i.toNat < C.params.n) {c : Contribution G}
    (ho : C.Orderly (posts ++ [(d, .contribution c)])) {v : View G} {r : Shareholder.Response F G}
    (hv : C.Shows (posts ++ [(d, .contribution c)]) v)
    (hreact : Shareholder.react { s with view := v } s.view d (.contribution c) = .ok r) :
    C.Holds i (posts ++ [(d, .contribution c)]) r.shareholder ∧
      C.Replies i posts (d, .contribution c) r.outgoing := by
  have hposts := ho.of_append
  obtain ⟨hd, -, hdeals⟩ := ho.last
  have hparams := h.params_eq hC hi
  set x : Post F G := (d, .contribution c) with hx
  have hkind : x.2.opcode = .contribution := rfl
  have hown : s.ownStatuses.set d.toNat (some .success) =
      C.params.dealers.map fun d => if d ∈ senders .contribution (posts ++ [x]) then some .success else none := by
    rw [h.ownStatuses]
    exact hC.set_dealer (fun _ => Status.success) hkind
  have hshares : s.shares.set d.toNat (some (C.pair d i)) =
      C.params.dealers.map fun d => if d ∈ senders .contribution (posts ++ [x]) then some (C.pair d i) else none := by
    rw [h.shares]
    exact hC.set_dealer (fun d => C.pair d i) hkind
  have hcount := ho.count_success hC
  rw [← hown] at hcount
  have hjudge : Shareholder.judge { s with view := v } c = .ok (C.pair d i) := h.judge hC hi hd hdeals
  have hfinal := h.finalShare_concat (x := x) hposts (by rw [hkind]; decide)
  obtain ⟨-, ⟨cause, herror, -⟩ | ⟨pair, s₁, out, hpair, -, hannounce, rfl⟩⟩ := Shareholder.onContribution_cases hreact
  · rw [hjudge] at herror
    cases herror
  obtain rfl := Except.ok.inj (hpair.symm.trans hjudge)
  rcases Shareholder.announce_cases hannounce with ⟨hwait, rfl, rfl⟩ | ⟨hunsent, henough, rfl, rfl⟩
  · -- the vector is out already, or contributions are missing
    have hiff : C.Stocked (posts ++ [x]) ↔ C.Stocked posts := by
      refine ⟨fun hstocked => ?_, fun hstocked => hstocked.mono (List.prefix_append _ _)⟩
      rcases hwait with hsent | hfew
      · exact h.vectorSent.1 hsent
      · have hfew : (s.ownStatuses.set d.toNat (some .success)).count (some .success) < s.params.n - s.params.f := hfew
        rw [hparams, hcount] at hfew
        exact absurd hstocked (not_le.2 hfew)
    refine ⟨h.of_react hC hi hv hreact hown hshares (h.vectorSent.trans hiff.symm) hfinal, ?_⟩
    refine ho.replies_nil fun kind hwakes hdue => ?_
    obtain rfl := Option.some.inj hwakes
    exact hiff.1 hdue
  · -- this contribution is the last of those that are needed
    have hunsent : s.vectorSent = false := hunsent
    have henough : s.params.n - s.params.f ≤ (s.ownStatuses.set d.toNat (some .success)).count (some .success) := henough
    rw [hparams, hcount] at henough
    have hnot : ¬ C.Stocked posts := by
      intro hstocked
      rw [h.vectorSent.2 hstocked] at hunsent
      cases hunsent
    have hexact : (senders .contribution (posts ++ [x])).length = C.params.n - C.params.f := by
      rw [senders_concat_of_eq hkind, List.length_append, List.length_singleton] at henough ⊢
      have hfew := not_le.1 hnot
      omega
    have hvector : s.ownStatuses.set d.toNat (some .success) = C.vector (posts ++ [x]) := by
      rw [vector, dealt, List.take_of_length_le hexact.le]
      exact hown
    refine ⟨h.of_react hC hi hv hreact hown hshares ⟨fun _ => henough, fun _ => rfl⟩ hfinal, ?_⟩
    exact ho.replies_singleton rfl ⟨henough, hvector⟩ hnot henough

/-! ### vectors -/

omit [Wire F] in
/-- an honest proof of the own constant term is what is asked for -/
theorem proves_constant {s : Shareholder F G} (hs : s.identity = (C.start i).identity) {a b : F}
    (ha : s.f1.constant? = some a) (hb : s.f2.constant? = some b) (rng : Random) :
    Proves (Opening.prove (G := G) a b rng).1 ((C.start i).f1.eval (0 : F)) ((C.start i).f2.eval (0 : F)) := by
  have hf1 : s.f1 = (C.start i).f1 := congrArg Identity.f1 hs
  have hf2 : s.f2 = (C.start i).f2 := congrArg Identity.f2 hs
  rw [← hf1, ← hf2, Poly.eval_zero, Poly.eval_zero, ha, hb]
  exact ⟨Opening.publicA_prove a b rng, Opening.verify_prove a b rng⟩

theorem Holds.onVerification (h : C.Holds i posts s) (hC : C.Staffed) (hi : i.toNat < C.params.n)
    {statuses : List (Option Status)} (ho : C.Orderly (posts ++ [(j, .verification statuses)])) {v : View G}
    {r : Shareholder.Response F G} (hv : C.Shows (posts ++ [(j, .verification statuses)]) v)
    (hreact : Shareholder.react { s with view := v } s.view j (.verification statuses) = .ok r) :
    C.Holds i (posts ++ [(j, .verification statuses)]) r.shareholder ∧
      C.Replies i posts (j, .verification statuses) r.outgoing := by
  have hposts := ho.of_append
  obtain ⟨-, -, hstocked, rfl⟩ := ho.last
  set x : Post F G := (j, .verification (C.vector posts)) with hx
  have hkind : x.2.opcode = .verification := rfl
  have hprefix : posts <+: posts ++ [x] := List.prefix_append _ _
  have hsame : senders .contribution (posts ++ [x]) = senders .contribution posts :=
    senders_concat_of_ne (by rw [hkind]; decide)
  obtain ⟨own, s₁, out, hown, hqual, rfl⟩ := Shareholder.onVerification_cases hreact
  have hframe := Shareholder.onQual_frame hqual
  have hquiet : Shareholder.rebuttalsTo { s with view := v } j own = [] :=
    h.rebuttalsTo_eq_nil hC hi v hown
  have hown' : s₁.ownStatuses =
      C.params.dealers.map fun d => if d ∈ senders .contribution (posts ++ [x]) then some .success else none := by
    rw [hframe, hsame]
    exact h.ownStatuses
  have hshares' : s₁.shares =
      C.params.dealers.map fun d => if d ∈ senders .contribution (posts ++ [x]) then some (C.pair d i) else none := by
    rw [hframe, hsame]
    exact h.shares
  have hsent : s₁.vectorSent = true ↔ C.Stocked (posts ++ [x]) := by
    rw [hframe, stocked_concat_of_ne (by rw [hkind]; decide)]
    exact h.vectorSent
  dsimp only
  rw [hquiet, List.nil_append]
  rcases Shareholder.onQual_cases hqual with ⟨hopen, rfl, rfl⟩ | ⟨q, s₂, hbefore, hq, hfinal, hanswer⟩
  · -- QUAL stays as it is
    have hiff : C.Frozen (posts ++ [x]) ↔ C.Frozen posts := by
      refine ⟨fun hf => ?_, fun hf => hf.mono hprefix⟩
      rcases hopen with hopen | hopen
      · exact h.shows.isSome_qual.1 hopen
      · exact absurd hf (hv.qual_eq_none.1 hopen)
    refine ⟨h.of_react hC hi hv hreact hown' hshares' hsent ?_, ho.replies_nil fun kind hwakes hdue => ?_⟩
    · rw [finalPair, hstocked.chosen_eq hprefix, if_congr hiff rfl rfl]
      exact h.finalShare
    · obtain rfl := Option.some.inj hwakes
      exact ⟨hiff.1 hdue.1, hstocked.chosen_eq hprefix ▸ hdue.2⟩
  · -- this vector freezes QUAL
    have hnot : ¬ C.Frozen posts := h.shows.qual_eq_none.1 hbefore
    have hf : C.Frozen (posts ++ [x]) := hv.isSome_qual.1 (Option.isSome_of_mem hq)
    have hq : v.qual = some q := hq
    rw [hv.qual, if_pos hf] at hq
    obtain rfl := Option.some.inj hq
    have hs₂ := h.tryFinalShare hC hi hposts hstocked hnot hf hv hfinal
    have hfinal' : s₁.finalShare = if C.Frozen (posts ++ [x]) then some (C.finalPair (posts ++ [x]) i) else none := by
      rw [if_pos hf]
      rcases hanswer with ⟨-, rfl, -⟩ | ⟨-, a, b, -, -, rfl, -⟩
      · rw [hs₂]
      · rw [hs₂]
    refine ⟨h.of_react hC hi hv hreact hown' hshares' hsent hfinal', ?_⟩
    have hindex : s.index = i := h.index_eq hC hi
    rcases hanswer with ⟨hout, -, rfl⟩ | ⟨hin, a, b, ha, hb, -, rfl⟩
    · refine ho.replies_nil fun kind hwakes hdue => ?_
      obtain rfl := Option.some.inj hwakes
      exact absurd (hindex ▸ hdue.2) hout
    · have hin : i ∈ C.chosen (posts ++ [x]) := hindex ▸ hin
      exact ho.replies_singleton rfl ⟨⟨hf, hin⟩, proves_constant h.identity ha hb _⟩ (fun hdue => hnot hdue.1) ⟨hf, hin⟩

/-! ### proofs -/

theorem Holds.onProof (h : C.Holds i posts s) (hC : C.Staffed) (hi : i.toNat < C.params.n) {π : Opening F G}
    (ho : C.Orderly (posts ++ [(j, .proof π)])) {v : View G} {r : Shareholder.Response F G}
    (hv : C.Shows (posts ++ [(j, .proof π)]) v)
    (hreact : Shareholder.react { s with view := v } s.view j (.proof π) = .ok r) :
    C.Holds i (posts ++ [(j, .proof π)]) r.shareholder ∧ C.Replies i posts (j, .proof π) r.outgoing := by
  have hposts := ho.of_append
  obtain ⟨-, -, ⟨hf, -⟩, -⟩ := ho.last
  set x : Post F G := (j, .proof π) with hx
  have hkind : x.2.opcode = .proof := rfl
  have hsame : senders .contribution (posts ++ [x]) = senders .contribution posts :=
    senders_concat_of_ne (by rw [hkind]; decide)
  have hproved : senders .proof (posts ++ [x]) ≠ [] := by
    rw [senders_concat_of_eq hkind]
    exact List.concat_ne_nil _ _
  have hholds : C.Holds i (posts ++ [x]) r.shareholder := by
    have hframe := Shareholder.onProof_frame hreact
    refine h.of_react hC hi hv hreact ?_ ?_ ?_ ?_
    · rw [hframe, hsame]
      exact h.ownStatuses
    · rw [hframe, hsame]
      exact h.shares
    · rw [hframe, stocked_concat_of_ne (by rw [hkind]; decide)]
      exact h.vectorSent
    · rw [hframe]
      exact h.finalShare_concat hposts (by rw [hkind]; decide)
  refine ⟨hholds, ?_⟩
  rcases Shareholder.onProof_cases hreact with ⟨hopen, rfl⟩ | ⟨q, proofs, rng, hbefore, hq, hprove, hanswer⟩
  · -- R was there before
    refine ho.replies_nil fun kind hwakes hdue => ?_
    obtain rfl := Option.some.inj hwakes
    rcases hopen with hopen | hopen
    · rw [h.shows.rSet] at hopen
      obtain ⟨r, hr⟩ := Option.isSome_iff_exists.1 hopen
      exact rest_eq_some hr
    · have hopen : v.rSet = none := hopen
      rw [hv.rSet] at hopen
      exact absurd (by simpa [rest] using hopen) hproved
  · -- this proof freezes R
    have hnil : senders .proof posts = [] := by
      rw [h.shows.rSet] at hbefore
      simpa [rest] using hbefore
    have hq : v.rSet = some q := hq
    rw [hv.rSet] at hq
    have hchosen := (hposts.stocked_of_frozen hf).chosen_eq (List.prefix_append posts [x])
    obtain ⟨l, rng', hok, hkeys, hproves⟩ := Shareholder.proveShares_eq_ok (G := G)
      (fun d hd => h.share_of_chosen hposts (hchosen ▸ mem_chosen_of_mem_rest hq hd)) s.rng
    obtain ⟨hproofs, -⟩ := Prod.mk.inj (Except.ok.inj (hok.symm.trans hprove))
    rcases hanswer with ⟨rfl, -⟩ | ⟨l', rfl, rfl⟩
    · cases hproofs
    · obtain rfl := Option.some.inj hproofs
      have hsorted : (l.map (·.1)).Pairwise (· < ·) := hkeys ▸ q.sorted
      have hentries := IndexMap.ofList_of_pairwise (List.pairwise_map.1 hsorted)
      refine ho.replies_singleton rfl ⟨q, hq, ?_, fun e he => ?_⟩ (fun hdue => hdue hnil) hproved
      · rw [IndexMap.keys, hentries, hkeys]
      · rw [hentries] at he
        exact hproves e he

/-! ### one delivery -/

variable [LawfulWire F] [LawfulWire G] {r : Shareholder.Response F G}

/-- **One more post is read**: what is held is kept up, and what has come to be due is answered, unless the reader is
silent. -/
theorem Holds.delivered (h : C.Holds i posts s) (hC : C.Staffed)
    (hinj : Set.InjOn (xCoordinate (F := F)) {i : Index | i.toNat < C.params.n}) (hi : i.toNat < C.params.n)
    (ho : C.Orderly (posts ++ [x])) (hd : Shareholder.Delivered s x.seal r) :
    C.Holds i (posts ++ [x]) r.shareholder ∧ ∃ out, C.Replies i posts x out ∧
      r.outgoing = if (C.start i).behavior = .silent then [] else out := by
  obtain ⟨j, y⟩ := x
  have hpayload := ho.payload_seal hC
  have hparams := h.params_eq hC hi
  have hbehavior : s.behavior = (C.start i).behavior := congrArg Identity.behavior h.identity
  have hlt : (Post.seal (j, y)).sender.toNat < s.params.n := hparams.symm ▸ lt_of_mem_honest ho.last.1
  have hreacts : ∀ v', s.view.step C.params j y = .ok (v', []) →
      (∀ r', Shareholder.react { s with view := v' } s.view j y = .ok r' →
        C.Holds i (posts ++ [(j, y)]) r'.shareholder ∧ C.Replies i posts (j, y) r'.outgoing) →
      C.Holds i (posts ++ [(j, y)]) r.shareholder ∧ ∃ out, C.Replies i posts (j, y) out ∧
        r.outgoing = if (C.start i).behavior = .silent then [] else out := fun v' hstep hkind => by
    obtain ⟨r', hreact, hshareholder, houtgoing⟩ := hd.reacts hpayload hlt (hparams.symm ▸ hstep)
    obtain ⟨hholds, hreplies⟩ := hkind r' hreact
    exact ⟨hshareholder ▸ hholds, r'.outgoing, hreplies, hbehavior ▸ houtgoing⟩
  cases y with
  | contribution c =>
    obtain ⟨v', hstep, hv⟩ := h.shows.takeContribution hC ho
    exact hreacts v' hstep fun r' hreact => h.onContribution hC hi ho hv hreact
  | verification statuses =>
    obtain ⟨v', hstep, hv⟩ := h.shows.takeVerification hC ho
    exact hreacts v' hstep fun r' hreact => h.onVerification hC hi ho hv hreact
  | rebuttal b => exact ho.last.2.2.elim
  | proof π =>
    obtain ⟨v', hstep, hv⟩ := h.shows.takeProof hC ho
    exact hreacts v' hstep fun r' hreact => h.onProof hC hi ho hv hreact
  | bulkProof b =>
    obtain ⟨houtgoing, hframe⟩ := hd.of_bulkProof hpayload
    have hsame : senders .contribution (posts ++ [(j, (.bulkProof b : Payload F G))]) = senders .contribution posts :=
      senders_concat_of_ne (by simp [Payload.opcode])
    have hshows : C.Shows (posts ++ [(j, .bulkProof b)]) r.shareholder.view := by
      rw [hd.view, hparams]
      exact h.shows.after hC hinj ho
    refine ⟨?_, [], ho.replies_nil (fun kind hwakes => by cases hwakes), by rw [houtgoing, ite_self]⟩
    exact {
      identity := hd.identity.trans h.identity
      valid := hd.valid h.valid
      shows := hshows
      ownStatuses := by rw [hframe, hsame]; exact h.ownStatuses
      shares := by rw [hframe, hsame]; exact h.shares
      vectorSent := by
        rw [hframe, stocked_concat_of_ne (by simp [Payload.opcode])]
        exact h.vectorSent
      finalShare := by
        rw [hframe]
        exact h.finalShare_concat ho.of_append (by simp [Payload.opcode]) }

end Cast

end DistributedKey
