/-
What one message can do to a view: for each kind of message, the checks that it passed and the view that it leaves.

- `nominate` is one step of the search for QUAL, and `Nominated` what the whole search gives: the candidates there were,
  then endorsed dealers, and all of them if there is room.
- `takeContribution_eq_ok`, `takeVerification_eq_ok`, `takeRebuttal_eq_ok`, `takeProof_eq_ok` and `takeBulkProof_eq_ok`
  read an accepted message back, and `step_contribution_eq_ok` and its like a step. No later proof opens a handler.
-/
import DistributedKey.Proofs.Checked
import DistributedKey.Proofs.Verdicts

namespace DistributedKey

open Checked

variable {F G : Type}

/-- every shareholder, as a dealer -/
def Params.dealers (p : Params) : List Index := (List.range p.n).map UInt32.ofNat

theorem Params.lt_of_mem_dealers {p : Params} {d : Index} (h : d ∈ p.dealers) : d.toNat < p.n := by
  obtain ⟨i, hi, rfl⟩ := List.mem_map.1 h
  exact lt_of_le_of_lt (Nat.mod_le _ _) (List.mem_range.1 hi)

theorem Params.mem_dealers {p : Params} {d : Index} : d ∈ p.dealers ↔ d.toNat < p.n :=
  ⟨lt_of_mem_dealers, fun h => List.mem_map.2 ⟨d.toNat, List.mem_range.2 h, by simp⟩⟩

/-- they are considered by increasing index -/
theorem Params.sorted_dealers {p : Params} (hn : p.n ≤ UInt32.size) : p.dealers.Pairwise (· < ·) :=
  Index.sorted_map_range hn

theorem Params.nodup_dealers {p : Params} (hn : p.n ≤ UInt32.size) : p.dealers.Nodup :=
  (sorted_dealers hn).imp UInt32.ne_of_lt

/-- fewer than `2 ^ 32` of them are all considered -/
theorem Params.upTo_eq_dealers {p : Params} (hn : p.n < UInt32.size) : Index.upTo p.n = p.dealers := Index.upTo_eq hn

theorem Params.eq_of_getElem?_dealers {p : Params} {j : Nat} {d : Index} (h : p.dealers[j]? = some d) :
    j < p.n ∧ d = UInt32.ofNat j := by
  rw [dealers, List.getElem?_map, Option.map_eq_some_iff] at h
  obtain ⟨i, hi, rfl⟩ := h
  obtain ⟨hj, hi⟩ := List.getElem?_eq_some_iff.1 hi
  rw [List.getElem_range] at hi
  exact ⟨by simpa using hj, congrArg UInt32.ofNat hi.symm⟩

/-! ## tables with an entry for each shareholder -/

theorem Params.length_dealers (p : Params) : p.dealers.length = p.n := by simp [Params.dealers]

section

variable {α : Type} {p : Params} {d : Index}

theorem Params.getElem?_map_dealers (entry : Index → α) (hd : d.toNat < p.n) :
    (p.dealers.map entry)[d.toNat]? = some (entry d) := by
  simp [Params.dealers, hd]

theorem Params.replicate_eq_map_dealers (p : Params) (a : α) : List.replicate p.n a = p.dealers.map fun _ => a := by
  rw [List.map_const', length_dealers]

/-- one entry replaced, as long as indices are words -/
theorem Params.set_map_dealers (entry : Index → α) (hn : p.n ≤ UInt32.size) (a : α) :
    (p.dealers.map entry).set d.toNat a = p.dealers.map fun e => if e = d then a else entry e := by
  refine List.ext_getElem (by simp) fun j hj _ => ?_
  have hj : j < p.n := by simpa [length_dealers] using hj
  have hword : (UInt32.ofNat j).toNat = j := Nat.mod_eq_of_lt (lt_of_lt_of_le hj hn)
  have hsame : d.toNat = j ↔ UInt32.ofNat j = d :=
    ⟨fun h => by rw [← h, UInt32.ofNat_toNat], fun h => by rw [← h, hword]⟩
  simp [Params.dealers, List.getElem_set, hsame]

end

namespace View

/-! ## candidates -/

/-- one dealer considered for QUAL -/
def nominate (p : Params) (verdicts : StatusMatrix) (cs : List Index) (dealer : Index) : List Index :=
  if cs.length = p.f + 1 ∨ dealer ∈ cs then cs
  else if p.k + p.f < verdicts.successesFor dealer then cs ++ [dealer]
  else cs

theorem nextCandidates_eq_foldl (p : Params) (verdicts : StatusMatrix) (cs : List Index) :
    nextCandidates p verdicts cs = (Index.upTo p.n).foldl (nominate p verdicts) cs := rfl

/-- what comes of considering the dealers `l` after the candidates `cs` -/
structure Nominated (p : Params) (verdicts : StatusMatrix) (l cs out : List Index) : Prop where
  kept : cs <+: out
  nodup : cs.Nodup → out.Nodup
  length_le : cs.length ≤ p.f + 1 → out.length ≤ p.f + 1
  endorsed : ∀ d ∈ out, d ∈ cs ∨ d ∈ l ∧ p.k + p.f < verdicts.successesFor d
  complete : out.length < p.f + 1 → ∀ d ∈ l, p.k + p.f < verdicts.successesFor d → d ∈ out

theorem nominated_nominate (p : Params) (verdicts : StatusMatrix) (cs : List Index) (d : Index) :
    Nominated p verdicts [d] cs (nominate p verdicts cs d) := by
  unfold nominate
  split_ifs with h1 h2
  · refine ⟨List.prefix_refl _, id, id, fun e he => Or.inl he, fun hlt e he _ => ?_⟩
    obtain rfl := List.mem_singleton.1 he
    exact h1.resolve_left fun hf => by omega
  · rw [not_or] at h1
    refine ⟨List.prefix_append _ _, fun hn => ?_, fun hl => ?_, fun e he => ?_, fun _ e he _ => ?_⟩
    · exact List.nodup_append.2 ⟨hn, List.nodup_singleton d, fun a ha b hb => by
        obtain rfl := List.mem_singleton.1 hb
        rintro rfl
        exact h1.2 ha⟩
    · have := h1.1
      simp only [List.length_append, List.length_singleton]
      omega
    · rcases List.mem_append.1 he with he | he
      · exact Or.inl he
      · obtain rfl := List.mem_singleton.1 he
        exact Or.inr ⟨List.mem_singleton_self _, h2⟩
    · exact List.mem_append_right _ he
  · refine ⟨List.prefix_refl _, id, id, fun e he => Or.inl he, fun _ e he hs => ?_⟩
    obtain rfl := List.mem_singleton.1 he
    exact absurd hs h2

theorem Nominated.append {p : Params} {verdicts : StatusMatrix} {l l' cs mid out : List Index}
    (h : Nominated p verdicts l cs mid) (h' : Nominated p verdicts l' mid out) :
    Nominated p verdicts (l ++ l') cs out where
  kept := h.kept.trans h'.kept
  nodup hn := h'.nodup (h.nodup hn)
  length_le hl := h'.length_le (h.length_le hl)
  endorsed d hd := by
    rcases h'.endorsed d hd with hd | ⟨hl, hs⟩
    · rcases h.endorsed d hd with hd | ⟨hl, hs⟩
      · exact Or.inl hd
      · exact Or.inr ⟨List.mem_append_left _ hl, hs⟩
    · exact Or.inr ⟨List.mem_append_right _ hl, hs⟩
  complete hlt d hd hs := by
    rcases List.mem_append.1 hd with hd | hd
    · exact h'.kept.subset (h.complete (lt_of_le_of_lt h'.kept.length_le hlt) d hd hs)
    · exact h'.complete hlt d hd hs

theorem nominated_foldl (p : Params) (verdicts : StatusMatrix) (l cs : List Index) :
    Nominated p verdicts l cs (l.foldl (nominate p verdicts) cs) := by
  induction l generalizing cs with
  | nil => exact ⟨List.prefix_refl _, id, id, fun d hd => Or.inl hd, fun _ d hd => absurd hd List.not_mem_nil⟩
  | cons d l ih => exact (nominated_nominate p verdicts cs d).append (ih _)

theorem nominated_nextCandidates (p : Params) (verdicts : StatusMatrix) (cs : List Index) :
    Nominated p verdicts (Index.upTo p.n) cs (nextCandidates p verdicts cs) := by
  rw [nextCandidates_eq_foldl]
  exact nominated_foldl p verdicts _ cs

/-- the endorsed dealers that are no candidates yet join the candidates in their order, as long as there is room -/
theorem foldl_nominate (p : Params) (verdicts : StatusMatrix) {l cs : List Index} (hl : l.Nodup)
    (hlen : cs.length ≤ p.f + 1) :
    l.foldl (nominate p verdicts) cs =
      (cs ++ l.filter fun d => d ∉ cs ∧ p.k + p.f < verdicts.successesFor d).take (p.f + 1) := by
  induction l generalizing cs with
  | nil => rw [List.filter_nil, List.append_nil, List.foldl_nil, List.take_of_length_le hlen]
  | cons d l ih =>
    obtain ⟨hd, hl⟩ := List.nodup_cons.1 hl
    rw [List.foldl_cons, nominate]
    split_ifs with hfull hendorsed
    · rw [ih hl hlen]
      rcases hfull with hfull | hmem
      · rw [List.take_append_of_le_length hfull.ge, List.take_append_of_le_length hfull.ge]
      · rw [List.filter_cons_of_neg (by simp [hmem])]
    · rw [not_or] at hfull
      have hroom : (cs ++ [d]).length ≤ p.f + 1 := by
        rw [List.length_append, List.length_singleton]
        exact lt_of_le_of_ne hlen hfull.1
      have hrest : (l.filter fun e => e ∉ cs ++ [d] ∧ p.k + p.f < verdicts.successesFor e) =
          l.filter fun e => e ∉ cs ∧ p.k + p.f < verdicts.successesFor e := by
        refine List.filter_congr fun e he => ?_
        have hne : e ≠ d := fun heq => hd (heq ▸ he)
        simp [hne]
      rw [ih hl hroom, hrest, List.filter_cons_of_pos (by simp [hfull.2, hendorsed]), List.append_assoc,
        List.singleton_append]
    · rw [ih hl hlen, List.filter_cons_of_neg (by simp [hendorsed])]

/-- considered from the start, the dealers that come out are the first endorsed ones -/
theorem foldl_nominate_eq (p : Params) (verdicts : StatusMatrix) {l cs : List Index} (hl : l.Nodup)
    (hnew : ∀ d ∈ l, d ∉ cs) (hlen : cs.length ≤ p.f + 1) :
    l.foldl (nominate p verdicts) cs =
      (cs ++ l.filter fun d => p.k + p.f < verdicts.successesFor d).take (p.f + 1) := by
  rw [foldl_nominate p verdicts hl hlen]
  congr 2
  exact List.filter_congr fun d hd => decide_eq_decide.2 (and_iff_right (hnew d hd))

/-! ## freezing QUAL -/

/-- QUAL as the candidates determine it -/
def qualOf (p : Params) (candidates : List Index) : Option IndexSet :=
  if candidates.length < p.f + 1 then none else some (.ofList candidates)

theorem tryQual_of_isSome {p : Params} {v : View G} (h : v.qual.isSome) : tryQual p v = v := by
  simp [tryQual, h]

theorem tryQual_of_none {p : Params} {v : View G} (h : v.qual = none) :
    tryQual p v = { v with
      candidates := nextCandidates p v.verdicts v.candidates
      qual := qualOf p (nextCandidates p v.verdicts v.candidates) } := by
  simp [tryQual, h, qualOf]

/-- looking for QUAL touches nothing but the candidates and QUAL -/
theorem tryQual_eq (p : Params) (v : View G) :
    tryQual p v = { v with candidates := (tryQual p v).candidates, qual := (tryQual p v).qual } := by
  cases h : v.qual with
  | none => rw [tryQual_of_none h]
  | some q => rw [tryQual_of_isSome (by simp [h])]

section

variable (p : Params) (v : View G)

@[simp] theorem tryQual_seen : (tryQual p v).seen = v.seen := by rw [tryQual_eq]
@[simp] theorem tryQual_commitments : (tryQual p v).commitments = v.commitments := by rw [tryQual_eq]
@[simp] theorem tryQual_verdicts : (tryQual p v).verdicts = v.verdicts := by rw [tryQual_eq]
@[simp] theorem tryQual_publicTerms : (tryQual p v).publicTerms = v.publicTerms := by rw [tryQual_eq]
@[simp] theorem tryQual_proofSet : (tryQual p v).proofSet = v.proofSet := by rw [tryQual_eq]
@[simp] theorem tryQual_rSet : (tryQual p v).rSet = v.rSet := by rw [tryQual_eq]
@[simp] theorem tryQual_provenShares : (tryQual p v).provenShares = v.provenShares := by rw [tryQual_eq]
@[simp] theorem tryQual_uSet : (tryQual p v).uSet = v.uSet := by rw [tryQual_eq]
@[simp] theorem tryQual_publicKey : (tryQual p v).publicKey = v.publicKey := by rw [tryQual_eq]

end

theorem tryQual_qual_of_some {p : Params} {v : View G} {q : IndexSet} (h : v.qual = some q) :
    (tryQual p v).qual = some q := by
  rw [tryQual_of_isSome (by simp [h]), h]

/-! ## what an accepted message did -/

/-- the commitments of a dealer after its first contribution: kept if they are `k` proper points -/
def keepCommitments [Suite F G] [Zero G] [DecidableEq G] (k : Nat) (c : Poly G) (d : Nat)
    (table : List (Option (Poly G))) : List (Option (Poly G)) :=
  match checkCommitments k c with
  | .ok () => table.set d (some c)
  | .error _ => table

section

variable [Suite F G] [Zero G] [DecidableEq G]

@[simp] theorem length_keepCommitments (k : Nat) (c : Poly G) (d : Nat) (table : List (Option (Poly G))) :
    (keepCommitments k c d table).length = table.length := by
  unfold keepCommitments
  split <;> simp

theorem takeContribution_eq_ok {p : Params} {d : Index} {c : Contribution G} {v v' : View G}
    (hlen : v.commitments.length = v.seen.length) :
    v.takeContribution p d c = .ok v' ↔
      v.seen[d.toNat]? = some false ∧ { v with
        seen := v.seen.set d.toNat true
        commitments := keepCommitments p.k c.commitments d.toNat v.commitments } = v' := by
  have hlt : ∀ b, v.seen[d.toNat]? = some b → d.toNat < v.seen.length := fun b hb =>
    (List.getElem?_eq_some_iff.1 hb).1
  unfold takeContribution keepCommitments
  simp only [bind_eq_ok, entry_eq_ok, require_eq_ok, replace_eq_ok, exists_const]
  cases hcheck : checkCommitments p.k c.commitments with
  | ok u =>
    simp only [bind_eq_ok, replace_eq_ok, pure_eq_ok]
    constructor
    · rintro ⟨b, hb, hn, _, ⟨-, rfl⟩, _, ⟨-, rfl⟩, h⟩
      exact ⟨(Bool.not_eq_true b ▸ hn) ▸ hb, h⟩
    · rintro ⟨hb, h⟩
      exact ⟨false, hb, by simp, _, ⟨hlt _ hb, rfl⟩, _, ⟨hlen ▸ hlt _ hb, rfl⟩, h⟩
  | error cause =>
    simp only [pure_eq_ok]
    constructor
    · rintro ⟨b, hb, hn, _, ⟨-, rfl⟩, h⟩
      exact ⟨(Bool.not_eq_true b ▸ hn) ▸ hb, h⟩
    · rintro ⟨hb, h⟩
      exact ⟨false, hb, by simp, _, ⟨hlt _ hb, rfl⟩, h⟩

end

theorem takeVerification_eq_ok {p : Params} {j : Index} {statuses : List (Option Status)} {v v' : View G} :
    v.takeVerification p j statuses = .ok v' ↔
      j.toNat < v.verdicts.rows.length ∧ v.verdicts.row? j.toNat = none ∧ statuses.length = p.n ∧
        tryQual p { v with verdicts := ⟨v.verdicts.rows.set j.toNat (some statuses)⟩ } = v' := by
  unfold takeVerification
  simp only [bind_eq_ok, present_eq_ok, require_eq_ok, exists_const, pure_eq_ok, StatusMatrix.hasRow?_eq_some,
    StatusMatrix.setRow?_eq_some]
  constructor
  · rintro ⟨b, ⟨hj, hrow⟩, hb, hlen, _, ⟨-, rfl⟩, h⟩
    refine ⟨hj, ?_, hlen, h⟩
    obtain rfl : b = false := by simpa using hb
    simpa using hrow
  · rintro ⟨hj, hrow, hlen, h⟩
    exact ⟨false, ⟨hj, by simp [hrow]⟩, by simp, hlen, _, ⟨hj, rfl⟩, h⟩

theorem takeRebuttal_eq_ok [Suite F G] [NatCast F] [Zero G] [Add G] [SMul F G] [DecidableEq G] {p : Params}
    {d : Index} {r : Rebuttal F} {v v' : View G} :
    v.takeRebuttal p d r = .ok v' ↔
      r.accuser.toNat < p.n ∧ v.verdicts.cell r.accuser.toNat d.toNat = some .complaint ∧
        (∃ c, v.commitments[d.toNat]? = some (some c) ∧ shareCorrect r.share r.accuser c = true) ∧
        r.share.index = r.accuser ∧
        tryQual p { v with verdicts := v.verdicts.set r.accuser d .success } = v' := by
  unfold takeRebuttal
  simp only [bind_eq_ok, present_eq_ok, require_eq_ok, exists_const, pure_eq_ok, entry_eq_ok, known_eq_ok,
    StatusMatrix.hasRow?_eq_some]
  rw [StatusMatrix.get_eq_cell]
  constructor
  · rintro ⟨hlt, b, ⟨-, -⟩, -, hcell, _, hc, c, rfl, hindex, hcorrect, h⟩
    exact ⟨hlt, hcell, ⟨c, hc, hcorrect⟩, hindex, h⟩
  · rintro ⟨hlt, hcell, ⟨c, hc, hcorrect⟩, hindex, h⟩
    obtain ⟨cells, hrow, -⟩ := StatusMatrix.cell_eq_some.1 hcell
    have hj := (List.getElem?_eq_some_iff.1 (StatusMatrix.row?_eq_some.1 hrow)).1
    exact ⟨hlt, true, ⟨hj, by simp [hrow]⟩, rfl, hcell, _, hc, c, rfl, hindex, hcorrect, h⟩

/-- R as it is after one more proof: frozen once `quorum` members of QUAL have proved their constant terms -/
def rSetAfter (quorum : Nat) (qual proofSet : IndexSet) (rSet : Option IndexSet) : Option IndexSet :=
  if rSet.isNone ∧ proofSet.size = quorum then some (qual.filter (· ∉ proofSet)) else rSet

section

variable [Suite F G] [Wire G] [Add G] [SMul F G] [DecidableEq F] [DecidableEq G]

theorem takeProof_eq_ok {p : Params} {j : Index} {π : Opening F G} {v v' : View G}
    (hlen : v.publicTerms.length = v.commitments.length) :
    v.takeProof p j π = .ok v' ↔
      ∃ qual c c₀, v.qual = some qual ∧ j ∈ qual ∧ v.commitments[j.toNat]? = some (some c) ∧ j ∉ v.proofSet ∧
        c.constant? = some c₀ ∧ π.verify c₀ = .ok () ∧ p.f ≤ qual.size ∧ { v with
          publicTerms := v.publicTerms.set j.toNat (some π.publicA)
          proofSet := v.proofSet.insert j
          rSet := rSetAfter (qual.size - p.f) qual (v.proofSet.insert j) v.rSet } = v' := by
  unfold takeProof rSetAfter
  simp only [bind_eq_ok, known_eq_ok, require_eq_ok, exists_const, entry_eq_ok, present_eq_ok]
  constructor
  · rintro ⟨qual, hq, hmem, _, hc, c, rfl, hnot, c₀, hc₀, h⟩
    split at h
    · simp at h
    · rename_i hverify
      simp only [bind_eq_ok, minus_eq_ok, replace_eq_ok, pure_eq_ok] at h
      obtain ⟨_, ⟨hf, rfl⟩, _, ⟨-, rfl⟩, h⟩ := h
      exact ⟨qual, c, c₀, hq, hmem, hc, hnot, hc₀, hverify, hf, h⟩
  · rintro ⟨qual, c, c₀, hq, hmem, hc, hnot, hc₀, hverify, hf, h⟩
    refine ⟨qual, hq, hmem, _, hc, c, rfl, hnot, c₀, hc₀, ?_⟩
    have hj := (List.getElem?_eq_some_iff.1 hc).1
    rw [hverify]
    simp only [bind_eq_ok, minus_eq_ok, replace_eq_ok, pure_eq_ok]
    exact ⟨_, ⟨hf, rfl⟩, _, ⟨by omega, rfl⟩, h⟩

variable [NatCast F] [Zero G] [Sub F] [Mul F] [Zero F] [One F] [Inv F]

omit [Sub F] [Mul F] [Zero F] [One F] [Inv F] in
theorem openShares_eq_ok {sender : Index} {commitments : List (Option (Poly G))}
    {l : List (Index × Opening F G)}
    (h : ∀ e ∈ l, ∃ c, commitments[e.1.toNat]? = some (some c) ∧ e.2.verify (c.eval (xCoordinate sender : F)) = .ok ()) :
    openShares sender commitments l = .ok (l.map fun e => (e.1, e.2.publicA)) := by
  induction l with
  | nil => rfl
  | cons e l ih =>
    obtain ⟨d, π⟩ := e
    obtain ⟨c, hc, hverify⟩ := h _ List.mem_cons_self
    have hentry : entry commitments d = .ok (some c) := entry_eq_ok.2 hc
    rw [openShares, hentry]
    simp only [known, bind, Except.bind, hverify, ih fun e he => h e (List.mem_cons_of_mem _ he)]
    rfl

omit [Sub F] [Mul F] [Zero F] [One F] [Inv F] in
/-- whatever the openings are, the revealed shares of an accepted bulk proof are the ones it names -/
theorem of_openShares_eq_ok {sender : Index} {commitments : List (Option (Poly G))}
    {l : List (Index × Opening F G)} {points : List (Index × G)}
    (h : openShares sender commitments l = .ok points) : points = l.map fun e => (e.1, e.2.publicA) := by
  induction l generalizing points with
  | nil =>
    simp only [openShares, pure_eq_ok] at h
    exact h.symm
  | cons e l ih =>
    obtain ⟨d, π⟩ := e
    simp only [openShares, bind_eq_ok] at h
    obtain ⟨_, -, c, -, h⟩ := h
    split at h
    · cases h
    · simp only [bind_eq_ok, pure_eq_ok] at h
      obtain ⟨others, hothers, rfl⟩ := h
      rw [ih hothers]
      rfl

/-- the tables with an accepted bulk proof put in -/
def withBulkProof (v : View G) (j : Index) (points : List (Index × G)) : View G :=
  { v with
    provenShares := v.provenShares.set j.toNat (some (.ofList points))
    uSet := v.uSet.insert j }

theorem takeBulkProof_eq_ok {p : Params} {j : Index} {b : BulkProof F G} {v : View G} {out : View G × List Notice}
    (hlen : v.provenShares.length = v.commitments.length) :
    v.takeBulkProof p j b = .ok out ↔
      v.publicKey.isSome ∧ out = (v, []) ∨
      v.publicKey = none ∧ ∃ c r points, v.commitments[j.toNat]? = some (some c) ∧ v.rSet = some r ∧
        b.proofs.keys = r.elems ∧ openShares j v.commitments b.proofs.entries = .ok points ∧ j ∉ v.uSet ∧
        (if (v.withBulkProof j points).uSet.size = p.k then reconstruct (F := F) p.k (v.withBulkProof j points)
          else .ok (v.withBulkProof j points, [])) = .ok out := by
  unfold takeBulkProof withBulkProof
  cases hkey : v.publicKey with
  | some key =>
    simp only [Option.isSome_some, ↓reduceIte, pure_eq_ok, true_and, reduceCtorEq, false_and, or_false]
    exact eq_comm
  | none =>
    simp only [Option.isSome_none, Bool.false_eq_true, ↓reduceIte, bind_eq_ok, entry_eq_ok, known_eq_ok,
      require_eq_ok, exists_const, replace_eq_ok, false_and, true_and, false_or]
    constructor
    · rintro ⟨o, hc, ho, r, hr, hkeys, points, hopen, hnot, _, ⟨-, rfl⟩, h⟩
      obtain ⟨c, rfl⟩ := Option.isSome_iff_exists.1 ho
      exact ⟨c, r, points, hc, hr, hkeys, hopen, hnot, h⟩
    · rintro ⟨c, r, points, hc, hr, hkeys, hopen, hnot, h⟩
      have hj := (List.getElem?_eq_some_iff.1 hc).1
      exact ⟨some c, hc, rfl, r, hr, hkeys, points, hopen, hnot, _, ⟨hlen ▸ hj, rfl⟩, h⟩

/-! ## one step -/

section

variable {p : Params} {j : Index} {v v' : View G} {notices : List Notice}

omit [Wire G] [Add G] [DecidableEq G] [Zero G] in
/-- a handler that has nothing to report -/
theorem return_nil_eq_ok {x : Checked (View G)} :
    (do return (← x, []) : Checked (View G × List Notice)) = .ok (v', notices) ↔ x = .ok v' ∧ notices = [] := by
  simp only [bind_eq_ok, pure_eq_ok, Prod.mk.injEq]
  constructor
  · rintro ⟨w, hw, rfl, rfl⟩
    exact ⟨hw, rfl⟩
  · rintro ⟨hw, rfl⟩
    exact ⟨v', hw, rfl, rfl⟩

theorem step_contribution_eq_ok {c : Contribution G} :
    v.step p j (.contribution c : Payload F G) = .ok (v', notices) ↔
      v.takeContribution p j c = .ok v' ∧ notices = [] :=
  return_nil_eq_ok

theorem step_verification_eq_ok {statuses : List (Option Status)} :
    v.step p j (.verification statuses : Payload F G) = .ok (v', notices) ↔
      v.takeVerification p j statuses = .ok v' ∧ notices = [] :=
  return_nil_eq_ok

theorem step_rebuttal_eq_ok {r : Rebuttal F} :
    v.step p j (.rebuttal r : Payload F G) = .ok (v', notices) ↔ v.takeRebuttal p j r = .ok v' ∧ notices = [] :=
  return_nil_eq_ok

theorem step_proof_eq_ok {π : Opening F G} :
    v.step p j (.proof π : Payload F G) = .ok (v', notices) ↔ v.takeProof p j π = .ok v' ∧ notices = [] :=
  return_nil_eq_ok

/-- once the public key is known, a bulk proof is not looked at -/
theorem step_bulkProof_of_known {b : BulkProof F G} (hknown : v.publicKey.isSome) :
    v.step p j (.bulkProof b) = .ok (v, []) := by
  rw [step, takeBulkProof, if_pos hknown]
  rfl

end

end

end View

end DistributedKey
