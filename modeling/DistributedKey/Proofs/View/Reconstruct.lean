/-
What the public key comes out as.

- `sharesOf_eq_ok`: the shares of a dealer are read from the tables of the senders in U.
- `interpolateTerms_eq_ok`: the constant term of each dealer is filled in, and nothing is noticed.
- `reconstruct_of_recovered`: the public key is the sum of the constant terms of QUAL.
- `reconstruct_eq_ok`: these are right where the shares that were proved are values of polynomials.
- `reconstruct_of_values`: so the key is `g` to the sum of what the dealers' polynomials are at zero.
- `exists_reconstruct`: they are there whatever the shares are, so a reconstruction never fails.
-/
import DistributedKey.Proofs.Interpolation
import DistributedKey.Proofs.View.Valid

namespace DistributedKey.View

open Checked

variable {F G : Type}

theorem sharesOf_eq_ok {table : List (Option (IndexMap G))} {d : Index} {value : Index → G} {l : List Index}
    (h : ∀ j ∈ l, ∃ m, table[j.toNat]? = some (some m) ∧ m.find? d = some (value j)) :
    sharesOf table d l = .ok (l.map fun j => ⟨value j, j⟩) := by
  induction l with
  | nil => rfl
  | cons j l ih =>
    obtain ⟨m, hm, hvalue⟩ := h j List.mem_cons_self
    have hentry : entry table j = .ok (some m) := entry_eq_ok.2 hm
    rw [sharesOf, hentry, ih fun i hi => h i (List.mem_cons_of_mem _ hi)]
    simp [hvalue, bind, Except.bind, pure, Except.pure]

theorem sumTerms_eq_ok [AddCommGroup G] {terms : List (Option G)} {term : Index → G} {l : List Index}
    (h : ∀ d ∈ l, terms[d.toNat]? = some (some (term d))) (acc : G) :
    sumTerms terms l acc = .ok (some (acc + (l.map term).sum)) := by
  induction l generalizing acc with
  | nil => simp [sumTerms, pure, Except.pure]
  | cons d l ih =>
    have hentry : entry terms d = .ok (some (term d)) := entry_eq_ok.2 (h d List.mem_cons_self)
    rw [sumTerms, hentry, List.map_cons, List.sum_cons, ← add_assoc]
    exact ih (fun e he => h e (List.mem_cons_of_mem _ he)) _

/-- the table of constant terms with those of some dealers filled in -/
def fillTerms (term : Index → G) (l : List Index) (terms : List (Option G)) : List (Option G) :=
  l.foldl (fun terms d => terms.set d.toNat (some (term d))) terms

/-- a term that is there, and the right one, or that is filled in, is there afterwards -/
theorem getElem?_fillTerms {term : Index → G} {l : List Index} {terms : List (Option G)} {d : Index}
    (hlt : d.toNat < terms.length) (h : d ∈ l ∨ terms[d.toNat]? = some (some (term d))) :
    (fillTerms term l terms)[d.toNat]? = some (some (term d)) := by
  induction l generalizing terms with
  | nil => exact h.resolve_left List.not_mem_nil
  | cons e l ih =>
    refine ih (by rwa [List.length_set]) ?_
    by_cases he : e = d
    · subst he
      exact Or.inr (List.getElem?_set_self hlt)
    · have hne : e.toNat ≠ d.toNat := fun heq => he (UInt32.toNat_inj.1 heq)
      rw [List.getElem?_set_ne hne]
      exact h.imp_left fun hmem => (List.mem_cons.1 hmem).resolve_left (Ne.symm he)

/-- what is in the table afterwards was there or was filled in -/
theorem of_getElem?_fillTerms {term : Index → G} {l : List Index} {terms : List (Option G)} {d : Nat} {y : G}
    (h : (fillTerms term l terms)[d]? = some (some y)) :
    terms[d]? = some (some y) ∨ ∃ e ∈ l, e.toNat = d ∧ y = term e := by
  induction l generalizing terms with
  | nil => exact Or.inl h
  | cons e l ih =>
    rcases ih h with h | ⟨e', he', hd, hy⟩
    · rw [List.getElem?_set] at h
      split_ifs at h with he hlt
      · exact Or.inr ⟨e, List.mem_cons_self, he, by simpa using h.symm⟩
      · exact Or.inl h
    · exact Or.inr ⟨e', List.mem_cons_of_mem _ he', hd, hy⟩

variable [Field F] [DecidableEq F] [AddCommGroup G] [Module F G]

theorem interpolateTerms_eq_ok {k : Nat} {v : View G} {term : Index → G} {l : List Index}
    (h : ∀ d ∈ l, ∃ shares, sharesOf v.provenShares d v.uSet.elems = .ok shares ∧ recover F k shares = .ok (term d))
    (hlt : ∀ d ∈ l, d.toNat < v.publicTerms.length) :
    interpolateTerms (F := F) k v l = .ok ({ v with publicTerms := fillTerms term l v.publicTerms }, []) := by
  induction l generalizing v with
  | nil => rfl
  | cons d l ih =>
    obtain ⟨shares, hshares, hrecover⟩ := h d List.mem_cons_self
    have hreplace : replace v.publicTerms d (some (term d)) = .ok (v.publicTerms.set d.toNat (some (term d))) :=
      replace_eq_ok.2 ⟨hlt d List.mem_cons_self, rfl⟩
    have hrest := ih (v := { v with publicTerms := v.publicTerms.set d.toNat (some (term d)) })
      (fun e he => h e (List.mem_cons_of_mem _ he))
      (fun e he => by rw [List.length_set]; exact hlt e (List.mem_cons_of_mem _ he))
    simp only [interpolateTerms, hshares, hrecover, hreplace, bind, Except.bind]
    exact hrest

/-- **The public key comes out as a sum of constant terms**, one for each member of QUAL: those of R as they are recovered,
the others as they are in the table. -/
theorem reconstruct_of_recovered {k : Nat} {v : View G} {q r : IndexSet} {term : Index → G} (hq : v.qual = some q)
    (hr : v.rSet = some r) (hlt : ∀ d ∈ q, d.toNat < v.publicTerms.length) (hsub : ∀ d ∈ r, d ∈ q)
    (hrecover : ∀ d ∈ r.elems, ∃ shares, sharesOf v.provenShares d v.uSet.elems = .ok shares ∧
      recover F k shares = .ok (term d))
    (hproved : ∀ d ∈ q, d ∈ r ∨ v.publicTerms[d.toNat]? = some (some (term d))) :
    reconstruct (F := F) k v = .ok
      ({ v with
        publicTerms := fillTerms term r.elems v.publicTerms
        publicKey := some (q.elems.map term).sum }, []) := by
  have hinterpolate := interpolateTerms_eq_ok hrecover fun d hd => hlt d (hsub d hd)
  have hsum : sumTerms (fillTerms term r.elems v.publicTerms) q.elems 0 = .ok (some (0 + (q.elems.map term).sum)) :=
    sumTerms_eq_ok (fun d hd => getElem?_fillTerms (hlt d hd) (hproved d hd)) 0
  rw [zero_add] at hsum
  simp only [reconstruct, hq, hr, hinterpolate, bind, Except.bind, ne_eq, not_true_eq_false, ↓reduceIte, hsum]
  rfl

omit [DecidableEq F] [AddCommGroup G] in
/-- the shares of one dealer are at the indices of the senders -/
theorem indices_shares (value : Index → G) (l : List Index) :
    (l.map fun j => (⟨value j, j⟩ : Eval G)).map (·.index) = l := by
  rw [List.map_map]
  exact List.map_id _

/-- the same where the shares that were proved are values of polynomials of at most `k` coefficients -/
theorem reconstruct_eq_ok {k : Nat} {v : View G} {q r : IndexSet} (poly : Index → Poly G) (hq : v.qual = some q)
    (hr : v.rSet = some r) (hlt : ∀ d ∈ q, d.toNat < v.publicTerms.length) (hsub : ∀ d ∈ r, d ∈ q)
    (hshares : ∀ j ∈ v.uSet, ∃ m, v.provenShares[j.toNat]? = some (some m) ∧
      ∀ d ∈ r, m.find? d = some ((poly d).eval (xCoordinate j : F)))
    (hlen : ∀ d ∈ r, (poly d).length ≤ k) (hk : k ≤ v.uSet.size)
    (hinj : Set.InjOn (xCoordinate (F := F)) {j | j ∈ v.uSet})
    (hproved : ∀ d ∈ q, d ∈ r ∨ v.publicTerms[d.toNat]? = some (some ((poly d).eval (0 : F)))) :
    reconstruct (F := F) k v = .ok
      ({ v with
        publicTerms := fillTerms (fun d => (poly d).eval (0 : F)) r.elems v.publicTerms
        publicKey := some (q.elems.map fun d => (poly d).eval (0 : F)).sum }, []) := by
  refine reconstruct_of_recovered hq hr hlt hsub (fun d hd => ?_) hproved
  have hread : sharesOf v.provenShares d v.uSet.elems =
      .ok (v.uSet.elems.map fun j => ⟨(poly d).eval (xCoordinate j : F), j⟩) := sharesOf_eq_ok fun j hj => by
    obtain ⟨m, hm, hfind⟩ := hshares j hj
    exact ⟨m, hm, hfind d hd⟩
  refine ⟨_, hread, ?_⟩
  rw [recover, interpolate_eval (p := poly d) (hlen d hd)]
  · intro e he
    obtain ⟨j, -, rfl⟩ := List.mem_map.1 he
    rfl
  · rwa [indices_shares]
  · rw [indices_shares, List.toFinset_card_of_nodup v.uSet.nodup_elems]
    exact hk

/-- and where they are values over `g` of polynomials of the dealers, the key is their sum at zero over `g` -/
theorem reconstruct_of_values [Suite F G] {k : Nat} {v : View G} {q r : IndexSet} {f1 : Index → Poly F}
    (hq : v.qual = some q) (hr : v.rSet = some r) (hlt : ∀ d ∈ q, d.toNat < v.publicTerms.length)
    (hsub : ∀ d ∈ r, d ∈ q)
    (hshares : ∀ j ∈ v.uSet, ∃ m, v.provenShares[j.toNat]? = some (some m) ∧
      ∀ d ∈ r, m.find? d = some ((f1 d).eval (xCoordinate j : F) • (generator : G)))
    (hlen : ∀ d ∈ r, (f1 d).length ≤ k) (hk : k ≤ v.uSet.size)
    (hinj : Set.InjOn (xCoordinate (F := F)) {j | j ∈ v.uSet})
    (hproved : ∀ d ∈ q, d ∈ r ∨ v.publicTerms[d.toNat]? = some (some ((f1 d).eval (0 : F) • (generator : G)))) :
    reconstruct (F := F) k v = .ok
      ({ v with
        publicTerms := fillTerms (fun d => (f1 d).eval (0 : F) • (generator : G)) r.elems v.publicTerms
        publicKey := some ((q.elems.map fun d => (f1 d).eval (0 : F)).sum • (generator : G)) }, []) := by
  have hkey := reconstruct_eq_ok (fun d => (f1 d).commitWith (generator : G)) hq hr hlt hsub
    (by simpa only [Poly.eval_commitWith] using hshares) (by simpa only [Poly.length_commitWith] using hlen) hk hinj
    (by simpa only [Poly.eval_commitWith] using hproved)
  simp only [Poly.eval_commitWith] at hkey
  rw [hkey, List.sum_smul, List.map_map]
  rfl

/-- and where any shares of the members of R are there, the terms are whatever these recover to -/
theorem exists_reconstruct {k : Nat} {v : View G} {q r : IndexSet} (hq : v.qual = some q) (hr : v.rSet = some r)
    (hlt : ∀ d ∈ q, d.toNat < v.publicTerms.length) (hsub : ∀ d ∈ r, d ∈ q)
    (hshares : ∀ j ∈ v.uSet, ∃ m, v.provenShares[j.toNat]? = some (some m) ∧ m.keys = r.elems) (hk : k ≤ v.uSet.size)
    (hinj : Set.InjOn (xCoordinate (F := F)) {j | j ∈ v.uSet})
    (hproved : ∀ d ∈ q, d ∈ r ∨ ∃ y, v.publicTerms[d.toNat]? = some (some y)) :
    ∃ term : Index → G, reconstruct (F := F) k v = .ok
      ({ v with
        publicTerms := fillTerms term r.elems v.publicTerms
        publicKey := some (q.elems.map term).sum }, []) := by
  have hrecover : ∀ d ∈ r.elems, ∃ y shares, sharesOf v.provenShares d v.uSet.elems = .ok shares ∧
      recover F k shares = .ok y := by
    intro d hd
    have hvalue : ∀ j ∈ v.uSet.elems, ∃ y m, v.provenShares[j.toNat]? = some (some m) ∧ m.find? d = some y := by
      intro j hj
      obtain ⟨m, hm, hkeys⟩ := hshares j hj
      obtain ⟨y, -, hfind⟩ := IndexMap.find?_of_mem_keys (m := m) (hkeys ▸ hd)
      exact ⟨y, m, hm, hfind⟩
    choose! value hvalue using hvalue
    have hinj' : Set.InjOn (xCoordinate (F := F))
        {i | i ∈ (v.uSet.elems.map fun j => (⟨value j, j⟩ : Eval G)).map (·.index)} := by rwa [indices_shares]
    have hcount : k ≤ ((v.uSet.elems.map fun j => (⟨value j, j⟩ : Eval G)).map (·.index)).toFinset.card := by
      rw [indices_shares, List.toFinset_card_of_nodup v.uSet.nodup_elems]
      exact hk
    obtain ⟨points, -, -, -, hinterpolate⟩ := interpolate_eq_ok hinj' hcount 0
    exact ⟨_, _, sharesOf_eq_ok hvalue, hinterpolate⟩
  have hterm : ∀ d ∈ q, ∃ y, (d ∈ r.elems → ∃ shares, sharesOf v.provenShares d v.uSet.elems = .ok shares ∧
      recover F k shares = .ok y) ∧ (d ∈ r ∨ v.publicTerms[d.toNat]? = some (some y)) := by
    intro d hd
    by_cases hmem : d ∈ r
    · obtain ⟨y, hy⟩ := hrecover d hmem
      exact ⟨y, fun _ => hy, Or.inl hmem⟩
    · obtain ⟨y, hy⟩ := (hproved d hd).resolve_left hmem
      exact ⟨y, fun hmem' => absurd hmem' hmem, Or.inr hy⟩
  choose! term hterm using hterm
  exact ⟨term, reconstruct_of_recovered hq hr hlt hsub (fun d hd => (hterm d (hsub d hd)).1 hd)
    fun d hd => (hterm d hd).2⟩

end DistributedKey.View
