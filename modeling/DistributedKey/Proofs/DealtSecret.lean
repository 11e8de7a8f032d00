/-
The public key is `g` to the dealt secret.

The constant term of a member of QUAL comes from its own proof or is interpolated from shares that U proved, and both may
be written. Suppose that what was accepted are values over `g` of one polynomial a dealer. Then, until the key is there,
the table of terms and the tables of shares hold such values only (`Agrees`), whichever proofs came first and whatever
was refused in between; and a reconstruction from such values gives the sum at zero.

- `ProofAccepted`, `BulkProofAccepted`: the entry of a log by which a sender joined those that proved, or U.
- `Reveals`: polynomials of `k` coefficients that agree with all that was accepted.
- `Agrees.step`, `agrees_ofLog`: what the tables hold, step by step and after every log.
- `publicKey_eq_dealt_secret`: the key is the sum of what the polynomials of QUAL are at zero, over `g`.
- `Cast.Orderly.reveals`: what honest shareholders post is accepted as values of the polynomials that they drew.
-/
import DistributedKey.Proofs.View.Staged
import DistributedKey.Proofs.Silent.Uniform

namespace DistributedKey

open Checked

variable {F G : Type}

/-! ## what was accepted -/

section

variable [Field F] [AddCommGroup G] [Module F G] [Suite F G] [Wire F] [Wire G] [DecidableEq F] [DecidableEq G]

/-- somewhere in a log, `π` is the proof by which `d` joined those that proved their constant terms -/
def ProofAccepted (p : Params) (log : List Envelope) (d : Index) (π : Opening F G) : Prop :=
  ∃ before e, before ++ [e] <+: log ∧ e.sender = d ∧ e.payload = .ok (.proof π : Payload F G) ∧
    d ∉ (View.ofLog p before : View G).proofSet ∧ d ∈ (View.ofLog p (before ++ [e]) : View G).proofSet

/-- somewhere in a log, `b` is the bulk proof by which `j` joined U -/
def BulkProofAccepted (p : Params) (log : List Envelope) (j : Index) (b : BulkProof F G) : Prop :=
  ∃ before e, before ++ [e] <+: log ∧ e.sender = j ∧ e.payload = .ok (.bulkProof b : Payload F G) ∧
    j ∉ (View.ofLog p before : View G).uSet ∧ j ∈ (View.ofLog p (before ++ [e]) : View G).uSet

variable {p : Params} {log log' : List Envelope} {d j : Index}

theorem ProofAccepted.mono {π : Opening F G} (h : ProofAccepted p log d π) (hlog : log <+: log') :
    ProofAccepted p log' d π := by
  obtain ⟨before, e, hbefore, haccepted⟩ := h
  exact ⟨before, e, hbefore.trans hlog, haccepted⟩

theorem BulkProofAccepted.mono {b : BulkProof F G} (h : BulkProofAccepted p log j b) (hlog : log <+: log') :
    BulkProofAccepted p log' j b := by
  obtain ⟨before, e, hbefore, haccepted⟩ := h
  exact ⟨before, e, hbefore.trans hlog, haccepted⟩

/-- a polynomial of `k` coefficients for each member of QUAL, of which every accepted proof reveals the value at zero and
every accepted bulk proof the values at its sender -/
structure Reveals (p : Params) (log : List Envelope) (q r : IndexSet) (f1 : Index → Poly F) : Prop where
  length : ∀ d ∈ q, (f1 d).length = p.k
  terms : ∀ d ∈ q, ∀ π : Opening F G, ProofAccepted p log d π → π.publicA = (f1 d).eval (0 : F) • (generator : G)
  shares : ∀ (j : Index) (b : BulkProof F G), BulkProofAccepted p log j b → ∀ d ∈ r, ∀ π, b.proofs.find? d = some π →
    π.publicA = (f1 d).eval (xCoordinate j : F) • (generator : G)

theorem Reveals.anti {q r : IndexSet} {f1 : Index → Poly F} (h : Reveals (G := G) p log' q r f1) (hlog : log <+: log') :
    Reveals (G := G) p log q r f1 where
  length := h.length
  terms d hd π hπ := h.terms d hd π (hπ.mono hlog)
  shares j b hb := h.shares j b (hb.mono hlog)

end

/-! ## what the tables hold -/

namespace View

variable [Field F] [AddCommGroup G] [Module F G] [Suite F G]

/-- until the key is there, terms and shares are values of `f1` over `g`; then the key is their sum at zero -/
structure Agrees (q r : IndexSet) (f1 : Index → Poly F) (v : View G) : Prop where
  terms : v.publicKey = none → ∀ d ∈ v.proofSet,
    v.publicTerms[d.toNat]? = some (some ((f1 d).eval (0 : F) • (generator : G)))
  shares : v.publicKey = none → ∀ j ∈ v.uSet, ∃ m, v.provenShares[j.toNat]? = some (some m) ∧
    ∀ d ∈ r, m.find? d = some ((f1 d).eval (xCoordinate j : F) • (generator : G))
  key : ∀ y, v.publicKey = some y → y = (q.elems.map fun d => (f1 d).eval (0 : F)).sum • (generator : G)

variable {p : Params} {q r : IndexSet} {f1 : Index → Poly F} {v v' : View G} {j : Index} {notices : List Notice}

theorem agrees_initial (n : Nat) : Agrees q r f1 (initial n : View G) where
  terms _ d hd := absurd hd IndexSet.not_mem_empty
  shares _ j hj := absurd hj IndexSet.not_mem_empty
  key y hy := by cases hy

theorem Agrees.of_frame (h : Agrees q r f1 v) (hterms : v'.publicTerms = v.publicTerms)
    (hproofSet : v'.proofSet = v.proofSet) (hshares : v'.provenShares = v.provenShares) (huSet : v'.uSet = v.uSet)
    (hkey : v'.publicKey = v.publicKey) : Agrees q r f1 v' where
  terms := by
    rw [hterms, hproofSet, hkey]
    exact h.terms
  shares := by
    rw [hshares, huSet, hkey]
    exact h.shares
  key := by
    rw [hkey]
    exact h.key

/-- once the key is there, nothing is asked of the tables -/
theorem Agrees.of_known (h : Agrees q r f1 v) {y : G} (hy : v.publicKey = some y) (hy' : v'.publicKey = some y) :
    Agrees q r f1 v' where
  terms hnone := by rw [hy'] at hnone; cases hnone
  shares hnone := by rw [hy'] at hnone; cases hnone
  key z hz := h.key z (by rw [hy, ← hy', hz])

/-- shares over R that are right put in -/
theorem Agrees.withShares (h : Agrees q r f1 v) (hunknown : v.publicKey = none) (hj : j.toNat < v.provenShares.length)
    {m : IndexMap G} (hm : ∀ d ∈ r, m.find? d = some ((f1 d).eval (xCoordinate j : F) • (generator : G))) :
    Agrees q r f1 (v.withShares j m) where
  terms := h.terms
  shares _ i hi := by
    by_cases hij : i = j
    · subst hij
      exact ⟨m, List.getElem?_set_self hj, hm⟩
    · have hne : j.toNat ≠ i.toNat := fun heq => hij (UInt32.toNat_inj.1 heq.symm)
      obtain ⟨m', hm', hfind⟩ := h.shares hunknown i ((IndexSet.mem_insert.1 hi).resolve_left hij)
      exact ⟨m', (List.getElem?_set_ne hne).trans hm', hfind⟩
  key := h.key

variable [Wire G] [DecidableEq F] [DecidableEq G]

/-- a proof accepted from a member of QUAL -/
theorem Agrees.takeProof (h : Agrees q r f1 v) (hv : Valid p v) (hunknown : v.publicKey = none) {π : Opening F G}
    (hok : v.takeProof p j π = .ok v') (hq : ∀ q', v'.qual = some q' → q' = q)
    (hπ : j ∈ q → j ∉ v.proofSet → j ∈ v'.proofSet → π.publicA = (f1 j).eval (0 : F) • (generator : G)) :
    Agrees q r f1 v' := by
  rw [takeProof_eq_ok hv.publicTerms_eq_commitments] at hok
  obtain ⟨q', c, c₀, hq', hmem, hc, hnew, -, -, -, rfl⟩ := hok
  have hlt : j.toNat < v.publicTerms.length := by
    rw [hv.publicTerms_eq_commitments]
    exact (List.getElem?_eq_some_iff.1 hc).1
  obtain rfl := hq q' hq'
  have hterm := hπ hmem hnew (IndexSet.mem_insert.2 (Or.inl rfl))
  refine ⟨fun _ d hd => ?_, h.shares, h.key⟩
  by_cases hdj : d = j
  · subst hdj
    rw [← hterm]
    exact List.getElem?_set_self hlt
  · have hne : j.toNat ≠ d.toNat := fun heq => hdj (UInt32.toNat_inj.1 heq.symm)
    exact (List.getElem?_set_ne hne).trans (h.terms hunknown d ((IndexSet.mem_insert.1 hd).resolve_left hdj))

omit [Wire G] in
/-- the key comes out right -/
theorem Agrees.reconstruct (h : Agrees q r f1 v) (hs : Staged v) (hv : Valid p v) (hunknown : v.publicKey = none)
    (hinj : Set.InjOn (xCoordinate (F := F)) {i : Index | i.toNat < p.n}) (hq : ∀ q', v.qual = some q' → q' = q)
    (hr : v.rSet = some r) (hlen : ∀ d ∈ q, (f1 d).length = p.k) (hk : p.k ≤ v.uSet.size)
    (hok : View.reconstruct (F := F) p.k v = .ok (v', notices)) : Agrees q r f1 v' := by
  obtain ⟨q', hq', hlt, hsub, hcovers⟩ := hs.covers hv hr
  obtain rfl := hq q' hq'
  have hkey := reconstruct_of_values hq' hr hlt hsub (h.shares hunknown) (fun d hd => (hlen d (hsub d hd)).le) hk
    (hinj.mono hv.uSet_lt) fun d hd => (hcovers d hd).imp_right (h.terms hunknown d)
  obtain ⟨rfl, -⟩ := Prod.mk.inj (Except.ok.inj (hok.symm.trans hkey))
  exact ⟨fun hnone => absurd hnone (by simp), fun hnone => absurd hnone (by simp), fun y hy => (Option.some.inj hy).symm⟩

omit [Wire G] in
/-- a bulk proof accepted over R, the `k`-th or one before -/
theorem Agrees.accepts (h : Agrees q r f1 v) (hs : Staged v) (hv : Valid p v)
    (hinj : Set.InjOn (xCoordinate (F := F)) {i : Index | i.toNat < p.n}) {b : BulkProof F G}
    (hok : Accepts p v j b v' notices) (hq : ∀ q', v.qual = some q' → q' = q) (hr : ∀ r', v.rSet = some r' → r' = r)
    (hlen : ∀ d ∈ q, (f1 d).length = p.k)
    (hb : ∀ d ∈ r, ∀ π, b.proofs.find? d = some π → π.publicA = (f1 d).eval (xCoordinate j : F) • (generator : G)) :
    Agrees q r f1 v' := by
  obtain ⟨r', hr', hkeys⟩ := hok.frozen
  obtain rfl := hr r' hr'
  have hlt : j.toNat < v.provenShares.length := hv.provenShares_length ▸ hok.sender
  have hshares : ∀ d ∈ r', (b.proofs.map Opening.publicA).find? d =
      some ((f1 d).eval (xCoordinate j : F) • (generator : G)) := by
    intro d hd
    obtain ⟨π, -, hπ⟩ := IndexMap.find?_of_mem_keys (m := b.proofs) (hkeys.symm ▸ hd : d ∈ b.proofs.keys)
    rw [IndexMap.find?_map, hπ, Option.map_some, hb d hd π hπ]
  have hput : Agrees q r' f1 (v.withShares j (b.proofs.map Opening.publicA)) :=
    h.withShares hok.unknown hlt hshares
  rcases hok.put with ⟨hfull, hreconstruct⟩ | ⟨-, rfl, -⟩
  · exact hput.reconstruct (hok.staged_withShares hv hs) (hv.withShares hok.sender _) hok.unknown hinj hq hr' hlen
      hfull.ge hreconstruct
  · exact hput

/-- **What the tables hold stays right**, if the message that is accepted reveals values of the polynomials. -/
theorem Agrees.step (h : Agrees q r f1 v) (hs : Staged v) (hv : Valid p v)
    (hinj : Set.InjOn (xCoordinate (F := F)) {i : Index | i.toNat < p.n}) {payload : Payload F G}
    (hok : v.step p j payload = .ok (v', notices)) (hq : ∀ q', v'.qual = some q' → q' = q)
    (hr : ∀ r', v'.rSet = some r' → r' = r) (hlen : ∀ d ∈ q, (f1 d).length = p.k)
    (hproof : ∀ π, payload = .proof π → j ∈ q → j ∉ v.proofSet → j ∈ v'.proofSet →
      π.publicA = (f1 j).eval (0 : F) • (generator : G))
    (hbulk : ∀ b, payload = .bulkProof b → j ∉ v.uSet → j ∈ v'.uSet → ∀ d ∈ r, ∀ π, b.proofs.find? d = some π →
      π.publicA = (f1 d).eval (xCoordinate j : F) • (generator : G)) :
    Agrees q r f1 v' := by
  have hsettles := settles_step hv hok
  rcases Option.eq_none_or_eq_some v.publicKey with hunknown | ⟨y, hy⟩
  · cases payload with
    | contribution _ | verification _ | rebuttal _ =>
      obtain ⟨hterms, hproofSet, -, hshares, huSet, hkey, -⟩ :=
        step_early_frame hv hok (by simp [Payload.opcode]) (by simp [Payload.opcode])
      exact h.of_frame hterms hproofSet hshares huSet hkey
    | proof π =>
      obtain ⟨hw, -⟩ := step_proof_eq_ok.1 hok
      exact h.takeProof hv hunknown hw hq (hproof π rfl)
    | bulkProof b =>
      rcases takeBulkProof_cases hv hok with ⟨-, rfl, -⟩ | haccepts
      · exact h
      · have hmem : j ∈ v'.uSet := by
          rw [haccepts.frame.1]
          exact IndexSet.mem_insert.2 (Or.inl rfl)
        exact h.accepts hs hv hinj haccepts (fun q' hq' => hq q' (hsettles.qual q' hq'))
          (fun r' hr' => hr r' (hsettles.rSet r' hr')) hlen (hbulk b rfl haccepts.new hmem)
  · exact h.of_known hy (hsettles.publicKey y hy)

variable [Wire F]

/-- **After every log the tables hold what was accepted**, and the key is the sum of it. -/
theorem agrees_ofLog (hinj : Set.InjOn (xCoordinate (F := F)) {i : Index | i.toNat < p.n}) {log : List Envelope}
    (hq : ∀ q', (ofLog p log : View G).qual = some q' → q' = q)
    (hr : ∀ r', (ofLog p log : View G).rSet = some r' → r' = r) (hf : Reveals (G := G) p log q r f1) :
    Agrees q r f1 (ofLog p log : View G) := by
  induction log using List.reverseRecOn with
  | nil => exact agrees_initial p.n
  | append_singleton log e ih =>
    have hlog : log <+: log ++ [e] := List.prefix_append log [e]
    have hsettles : Settles (ofLog p log : View G) (ofLog p (log ++ [e])) := settles_ofLog p hlog
    have hbefore := ih (fun q' hq' => hq q' (hsettles.qual q' hq')) (fun r' hr' => hr r' (hsettles.rSet r' hr'))
      (hf.anti hlog)
    rcases after_cases p (ofLog p log : View G) e with hsame | ⟨payload, notices, hpayload, -, hstep⟩
    · rw [ofLog_concat, hsame]
      exact hbefore
    · rw [← ofLog_concat] at hstep
      refine hbefore.step (staged_ofLog p log) (valid_ofLog p log) hinj hstep hq hr hf.length ?_ ?_
      · rintro π rfl hmem hnew hjoined
        exact hf.terms e.sender hmem π ⟨log, e, List.prefix_refl _, rfl, hpayload, hnew, hjoined⟩
      · rintro b rfl hnew hjoined
        exact hf.shares e.sender b ⟨log, e, List.prefix_refl _, rfl, hpayload, hnew, hjoined⟩

end View

/-! ## the key -/

section

variable [Field F] [AddCommGroup G] [Module F G] [Suite F G] [Wire F] [Wire G] [Sampled F] [DecidableEq F]
  [DecidableEq G]

/-- **The public key is `g` to the dealt secret.** Whatever a shareholder was sent, once it holds a public key QUAL and R are
frozen, and if all that it accepted are values over `g` of polynomials of the members of QUAL, one each, of `k`
coefficients, then the key is the sum of what these are at zero, over `g`. -/
theorem publicKey_eq_dealt_secret (r : Nat) [CharP F r] {s₀ s : Shareholder F G} (hr : s₀.params.n ≤ r)
    (h₀ : s₀.Fresh) {log : List Envelope} {out : List (Payload F G)} (h : History s₀ log s out) {y : G}
    (hkey : s.view.publicKey = some y) : ∃ q R, s.view.qual = some q ∧ s.view.rSet = some R ∧
      ∀ f1 : Index → Poly F, Reveals (G := G) s₀.params log q R f1 →
        y = (q.elems.map fun d => (f1 d).eval (0 : F)).sum • (generator : G) := by
  have hinj := injOn_xCoordinate (F := F) r hr
  have hadmissible := h₀.valid.admissible
  have hcounted : View.Counted s₀.params (View.ofLog s₀.params log : View G) :=
    View.counted_ofLog hinj hadmissible log
  have hstaged : View.Staged (View.ofLog s₀.params log : View G) := View.staged_ofLog s₀.params log
  rw [h.view_eq_ofLog h₀] at hkey ⊢
  obtain ⟨q, R, hq, hR⟩ := hcounted.frozen hadmissible hstaged (hkey ▸ rfl)
  refine ⟨q, R, hq, hR, fun f1 hf => ?_⟩
  have hagrees : View.Agrees q R f1 (View.ofLog s₀.params log : View G) := by
    apply View.agrees_ofLog hinj _ _ hf
    · intro q' hq'
      exact Option.some.inj (hq'.symm.trans hq)
    · intro R' hR'
      exact Option.some.inj (hR'.symm.trans hR)
  exact hagrees.key y hkey

/-! ## honest runs -/

variable [LawfulWire F] [LawfulWire G]

namespace Cast

variable {C : Cast F G} {posts : List (Post F G)}

omit [Sampled F] in
/-- an entry of an orderly log is a post that met what stood before it -/
theorem Orderly.meets_of_entry (h : C.Orderly posts) (hC : C.Staffed) {before : List Envelope} {e : Envelope}
    {payload : Payload F G} (he : before ++ [e] <+: posts.map Post.seal) (hpayload : e.payload = .ok payload) :
    ∃ earlier, C.Meets earlier e.sender payload := by
  obtain ⟨l, hl, hmap⟩ := List.prefix_map_iff.1 he
  obtain ⟨earlier, last, rfl, -, hlast⟩ := List.map_eq_append_iff.1 hmap.symm
  obtain ⟨x, rfl, rfl⟩ := List.map_eq_singleton_iff.1 hlast
  have horderly := h.anti hl
  obtain rfl := Except.ok.inj ((horderly.payload_seal hC).symm.trans hpayload)
  exact ⟨earlier, horderly.last.2.2⟩

omit [Sampled F] in
/-- what honest shareholders post reveals values of the polynomials that they drew -/
theorem Orderly.reveals (h : C.Orderly posts) (hC : C.Staffed) {q r : IndexSet} (hq : ∀ d ∈ q, d.toNat < C.params.n) :
    Reveals (G := G) C.params (posts.map Post.seal) q r fun d => (C.start d).f1 where
  length d hd := hC.length_f1 (hq d hd)
  terms := by
    rintro d - π ⟨before, e, he, rfl, hpayload, -⟩
    obtain ⟨earlier, -, hproves⟩ := h.meets_of_entry hC he hpayload
    exact hproves.publicA
  shares := by
    rintro j b ⟨before, e, he, rfl, hpayload, -⟩ d - π hπ
    obtain ⟨earlier, r', -, -, hproves⟩ := h.meets_of_entry hC he hpayload
    exact (hproves _ (IndexMap.mem_of_find? hπ)).publicA

end Cast

end

/-- five shareholders that have come to rest: their polynomials are all `1` at zero, and the key is `1 + 1` -/
theorem publicKey_eq_dealt_secret_five : ∃ (log : List Envelope) (s : Shareholder (ZMod 11) (ZMod 11))
    (out : List (Payload (ZMod 11) (ZMod 11))) (q R : IndexSet), History (Cast.five.start 1) log s out ∧
      s.view.qual = some q ∧ s.view.rSet = some R ∧
        Reveals (G := ZMod 11) Cast.five.params log q R (fun d => (Cast.five.start d).f1) ∧ s.view.publicKey = some 2 := by
  obtain ⟨posts, s, out, horderly, -, hhistory, -, hkey, -⟩ := Cast.five_at_rest
  obtain ⟨y, hy⟩ := Option.isSome_iff_exists.1 hkey
  have hparams : (Cast.five.start 1).params = Cast.five.params := Cast.ready_five.params_eq Cast.one_lt_five
  obtain ⟨q, R, hq, hR, hsum⟩ := publicKey_eq_dealt_secret 11 Cast.n_start_five_le Cast.fresh_five hhistory hy
  have hvalid : s.view.Valid Cast.five.params := by
    rw [← hparams, ← hhistory.params_eq Cast.fresh_five.valid]
    exact (hhistory.valid Cast.fresh_five.valid).view
  have hreveals : Reveals (G := ZMod 11) Cast.five.params (posts.map Post.seal) q R fun d => (Cast.five.start d).f1 :=
    horderly.reveals Cast.ready_five.toStaffed fun d hd => (hvalid.qual_endorsed hq hd).1
  have hone : ∀ d : Index, (Cast.five.start d).f1.eval (0 : ZMod 11) = 1 := by
    intro d
    rw [Poly.eval_zero]
    rfl
  refine ⟨posts.map Post.seal, s, out, q, R, hhistory, hq, hR, hreveals, ?_⟩
  rw [hy, hsum _ (hparams ▸ hreveals)]
  simp only [hone, List.map_const', List.sum_replicate]
  rw [show List.length _ = Cast.five.params.f + 1 from hvalid.qual_size hq, Cast.params_five]
  decide

end DistributedKey
