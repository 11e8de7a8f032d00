/-
Runs in which nobody deviates from the protocol but by silence: who takes part, and what the log may hold.

A `Cast` is the group and each shareholder as it is before any message; `Cast.Staffed` collects what is asked of it, and
`Cast.Ready` asks besides that enough of it are honest, and that it is small enough for a loop over `Index.upTo` to see all
of it. The log is kept as posts, a sender and a message each, before these are sealed.

- `Due posts i kind`: after `posts` shareholder `i` is to post a message of a kind.
- `Meets posts i y`: message `y` is what the protocol then asks shareholder `i` for.
- `Orderly posts`: each post meets what stands before it, and nobody posts two messages of one kind.
- `Stocked.dealt_eq`, `Orderly.rest_eq`, `Orderly.due_mono`, …: what orderly posts have settled, later ones keep.
-/
import DistributedKey.Proofs.Dealing

namespace DistributedKey

variable {F G : Type}

/-- a message and its sender, before it is sealed -/
abbrev Post (F G : Type) := Index × Payload F G

def Post.seal [Wire F] [Wire G] (x : Post F G) : Envelope := x.2.toEnvelope x.1

/-- who posted a message of a kind, in order -/
def senders (kind : Opcode) (posts : List (Post F G)) : List Index :=
  (posts.filter (·.2.opcode = kind)).map (·.1)

section

variable {kind : Opcode} {posts posts' : List (Post F G)} {x : Post F G} {i : Index}

@[simp] theorem senders_nil : senders kind ([] : List (Post F G)) = [] := rfl

theorem senders_append : senders kind (posts ++ posts') = senders kind posts ++ senders kind posts' := by
  simp [senders]

theorem senders_concat_of_eq (h : x.2.opcode = kind) : senders kind (posts ++ [x]) = senders kind posts ++ [x.1] := by
  simp [senders, h]

theorem senders_concat_of_ne (h : x.2.opcode ≠ kind) : senders kind (posts ++ [x]) = senders kind posts := by
  simp [senders, h]

theorem senders_mono (h : posts <+: posts') : senders kind posts <+: senders kind posts' := by
  obtain ⟨later, rfl⟩ := h
  rw [senders_append]
  exact List.prefix_append _ _

theorem mem_senders_concat : i ∈ senders kind (posts ++ [x]) ↔ i ∈ senders kind posts ∨ i = x.1 ∧ x.2.opcode = kind := by
  by_cases h : x.2.opcode = kind
  · simp [senders_concat_of_eq h, h]
  · simp [senders_concat_of_ne h, h]

end

/-! ## the cast -/

/-- the group of a run and its shareholders before any message -/
structure Cast (F G : Type) where
  group : Group G
  start : Index → Shareholder F G

namespace Cast

section

variable (C : Cast F G)

def params : Params := C.group.params

/-- the shareholders that are not silent -/
def honest : List Index := C.params.dealers.filter fun i => (C.start i).behavior = .honest

def silent : List Index := C.params.dealers.filter fun i => (C.start i).behavior = .silent

end

section

variable {C : Cast F G} {i : Index}

theorem mem_honest : i ∈ C.honest ↔ i.toNat < C.params.n ∧ (C.start i).behavior = .honest := by
  simp [honest, Params.mem_dealers]

theorem lt_of_mem_honest (h : i ∈ C.honest) : i.toNat < C.params.n := (mem_honest.1 h).1

end

variable [Field F] [AddCommGroup G] [Module F G] [Suite F G]

/-- what is asked of a cast: `n` shareholders of one group, of different indices, honest or silent, no more than `f` of them
silent; whatever their keys, randomness and polynomials are, no commitment of an honest one is the identity -/
structure Staffed (C : Cast F G) : Prop where
  group : ∃ keys config, Group.create keys config = .ok C.group
  indices : C.params.dealers.Nodup
  fresh : ∀ i, i.toNat < C.params.n → (C.start i).Fresh
  index_eq : ∀ i, i.toNat < C.params.n → (C.start i).index = i
  group_eq : ∀ i, i.toNat < C.params.n → (C.start i).group = C.group
  behavior : ∀ i, i.toNat < C.params.n → (C.start i).behavior = .honest ∨ (C.start i).behavior = .silent
  faults : C.silent.length ≤ C.params.f
  nonzero : ∀ d ∈ C.honest, ∀ c ∈ (C.start d).commitments.coeffs, c ≠ 0
  /-- elements of `G` are points of the group -/
  points : ∀ c : G, Suite.onCurve c = true ∧ Suite.inSubgroup c = true

/-- and that the honest ones are enough for QUAL; `2 ^ 32` shareholders are as many as there are indices, but a loop over so
many looks at none -/
structure Ready (C : Cast F G) : Prop extends C.Staffed where
  lt_words : C.params.n < UInt32.size
  enough : C.params.k + C.params.f < C.params.n - C.silent.length

/-- what is known of staffed casts is known of those that are ready -/
instance (C : Cast F G) : Coe C.Ready C.Staffed := ⟨Ready.toStaffed⟩

/-- what dealer `d` deals to shareholder `i` -/
def pair (C : Cast F G) (d i : Index) : SharePair F := Shareholder.pairFor (C.start d).f1 (C.start d).f2 i

variable {C : Cast F G} {i d : Index}

theorem Staffed.params_eq (h : C.Staffed) (hi : i.toNat < C.params.n) : (C.start i).params = C.params :=
  congrArg Group.params (h.group_eq i hi)

theorem Staffed.length_honest (h : C.Staffed) : C.honest.length + C.silent.length = C.params.n := by
  have hsplit : C.silent = C.params.dealers.filter fun i => ! decide ((C.start i).behavior = .honest) := by
    refine List.filter_congr fun i hi => ?_
    rcases h.behavior i (Params.lt_of_mem_dealers hi) with hb | hb <;> simp [hb]
  rw [hsplit, honest, ← Params.length_dealers C.params]
  exact (List.length_eq_length_filter_add _).symm

theorem Staffed.le_words (h : C.Staffed) : C.params.n ≤ UInt32.size := by
  rw [← Params.length_dealers]
  exact IndexSet.length_le_of_nodup h.indices

theorem Staffed.toNat_ofNat (h : C.Staffed) {j : Nat} (hj : j < C.params.n) : (UInt32.ofNat j).toNat = j :=
  Nat.mod_eq_of_lt (lt_of_lt_of_le hj h.le_words)

theorem Staffed.le_length_honest (h : C.Staffed) : C.params.n ≤ C.honest.length + C.params.f := by
  have := h.length_honest
  have := h.faults
  omega

theorem Ready.lt_length_honest (h : C.Ready) : C.params.k + C.params.f < C.honest.length := by
  have := h.length_honest
  have := h.enough
  omega

theorem Staffed.nodup_honest (h : C.Staffed) : C.honest.Nodup := h.indices.filter _

theorem Staffed.admissible (h : C.Staffed) : C.params.Admissible := by
  obtain ⟨keys, config, hcreate⟩ := h.group
  exact admissible_of_create hcreate

/-- commitments open at every index to what is dealt to it -/
theorem eval_commitments (hd : d ∈ C.honest) (x : F) :
    (C.start d).commitments.eval x = pedersen ((C.start d).f1.eval x) ((C.start d).f2.eval x) :=
  Shareholder.eval_commitments (mem_honest.1 hd).2 x

theorem Staffed.length_f1 (h : C.Staffed) (hd : d.toNat < C.params.n) : (C.start d).f1.length = C.params.k :=
  (h.fresh d hd).f1_length.trans (congrArg Params.k (h.params_eq hd))

variable [DecidableEq G]

/-- an honest shareholder of a cast deals as it should -/
theorem Staffed.upright (h : C.Staffed) (hd : d ∈ C.honest) : (C.start d).Upright where
  fresh := h.fresh d (lt_of_mem_honest hd)
  behavior := (mem_honest.1 hd).2
  proper c hc := by simp [View.improper, h.nonzero d hd c hc, h.points c]

theorem Staffed.length_commitments (h : C.Staffed) (hd : d ∈ C.honest) : (C.start d).commitments.length = C.params.k :=
  (h.upright hd).length_commitments.trans (congrArg Params.k (h.params_eq (lt_of_mem_honest hd)))

/-- the commitments of an honest dealer are accepted -/
theorem Staffed.proper (h : C.Staffed) (hd : d ∈ C.honest) :
    View.checkCommitments C.params.k (C.start d).commitments = .ok () := by
  rw [← h.params_eq (lt_of_mem_honest hd)]
  exact (h.upright hd).check

end Cast

/-! ## what the protocol asks for -/

namespace Cast

section

variable (C : Cast F G) (posts : List (Post F G))

/-- the dealers of the first `n - f` contributions -/
def dealt : List Index := (senders .contribution posts).take (C.params.n - C.params.f)

/-- the `f + 1` lowest of them, which make up QUAL -/
def chosen : IndexSet := (IndexSet.ofList (C.dealt posts)).least (C.params.f + 1)

/-- the vector that everybody announces -/
def vector : List (Option Status) :=
  C.params.dealers.map fun d => if d ∈ C.dealt posts then some .success else none

/-- all of the `n - f` contributions are there -/
def Stocked : Prop := C.params.n - C.params.f ≤ (senders .contribution posts).length

/-- enough vectors are out to freeze QUAL; `2 ^ 32` shareholders are none to look at -/
def Frozen : Prop := C.params.n < UInt32.size ∧ C.params.k + C.params.f < (senders .verification posts).length

instance : Decidable (C.Stocked posts) := inferInstanceAs (Decidable (_ ≤ _))

instance : Decidable (C.Frozen posts) := inferInstanceAs (Decidable (_ ∧ _))

/-- QUAL but for the first to prove its constant term, which makes up R -/
def rest : Option IndexSet :=
  (senders .proof posts).head?.map fun first => (C.chosen posts).filter (· ≠ first)

/-- whether shareholder `i` should have posted a message of a kind; a contribution may come at any time -/
def Due (i : Index) : Opcode → Prop
  | .contribution => False
  | .verification => C.Stocked posts
  | .rebuttal => False
  | .proof => C.Frozen posts ∧ i ∈ C.chosen posts
  | .bulkProof => senders .proof posts ≠ []

end

section

variable [Field F] [AddCommGroup G] [Module F G] [Suite F G] [Wire F] [Wire G] [DecidableEq F] [DecidableEq G]
  (C : Cast F G)

/-- a contribution that every shareholder opens to what is dealt to it -/
structure Deals (d : Index) (c : Contribution G) : Prop where
  commitments : c.commitments = (C.start d).commitments
  fits : (Payload.contribution c : Payload F G).Fits
  opens : ∀ i, i.toNat < C.params.n → ∀ s : Shareholder F G, s.identity = (C.start i).identity →
    s.openShare c.shares = .ok (C.pair d i)

/-- a proof that opens a commitment to the pair `(a, b)` and reveals `a` over `g` -/
structure Proves (π : Opening F G) (a b : F) : Prop where
  publicA : π.publicA = a • (generator : G)
  verify : π.verify (pedersen a b) = .ok ()

/-- a message as the protocol asks for it after these posts -/
def Meets (posts : List (Post F G)) (i : Index) : Payload F G → Prop
  | .contribution c => C.Deals i c
  | .verification statuses => C.Stocked posts ∧ statuses = C.vector posts
  | .rebuttal _ => False
  | .proof π => (C.Frozen posts ∧ i ∈ C.chosen posts) ∧
      Proves π ((C.start i).f1.eval (0 : F)) ((C.start i).f2.eval (0 : F))
  | .bulkProof b => ∃ r, C.rest posts = some r ∧ b.proofs.keys = r.elems ∧
      ∀ e ∈ b.proofs.entries, Proves e.2 (C.pair e.1 i).value (C.pair e.1 i).blinding

/-- each post is by an honest shareholder, its first of the kind, and meets what stands before it -/
inductive Orderly : List (Post F G) → Prop
  | nil : Orderly []
  | concat {posts : List (Post F G)} {i : Index} {y : Payload F G} (h : Orderly posts) (hi : i ∈ C.honest)
      (hfirst : i ∉ senders y.opcode posts) (hmeets : C.Meets posts i y) : Orderly (posts ++ [(i, y)])

end

/-! ## what later posts keep -/

section

variable {C : Cast F G} {posts posts' : List (Post F G)} {x : Post F G} {d : Index}

/-- once there are `n - f` contributions, later ones do not count -/
theorem Stocked.dealt_eq (h : C.Stocked posts) (hp : posts <+: posts') : C.dealt posts' = C.dealt posts := by
  obtain ⟨later, hlater⟩ : senders .contribution posts <+: senders .contribution posts' := senders_mono hp
  rw [dealt, dealt, ← hlater, List.take_append_of_le_length h]

theorem dealt_concat_of_ne {x : Post F G} (h : x.2.opcode ≠ .contribution) :
    C.dealt (posts ++ [x]) = C.dealt posts := by
  rw [dealt, dealt, senders_concat_of_ne h]

theorem mem_senders_of_mem_dealt (h : d ∈ C.dealt posts) : d ∈ senders .contribution posts := List.mem_of_mem_take h

theorem mem_dealt_of_mem_chosen (h : d ∈ C.chosen posts) : d ∈ C.dealt posts :=
  IndexSet.mem_ofList.1 (IndexSet.mem_of_mem_least h)

theorem Stocked.mono (h : C.Stocked posts) (hp : posts <+: posts') : C.Stocked posts' :=
  le_trans h (senders_mono hp).length_le

theorem stocked_concat_of_ne (hx : x.2.opcode ≠ .contribution) : C.Stocked (posts ++ [x]) ↔ C.Stocked posts := by
  rw [Stocked, Stocked, senders_concat_of_ne hx]

theorem Stocked.chosen_eq (h : C.Stocked posts) (hp : posts <+: posts') : C.chosen posts' = C.chosen posts := by
  rw [chosen, chosen, h.dealt_eq hp]

theorem Stocked.vector_eq (h : C.Stocked posts) (hp : posts <+: posts') : C.vector posts' = C.vector posts := by
  rw [vector, vector, h.dealt_eq hp]

theorem Frozen.mono (h : C.Frozen posts) (hp : posts <+: posts') : C.Frozen posts' :=
  ⟨h.1, lt_of_lt_of_le h.2 (senders_mono hp).length_le⟩

theorem frozen_concat_of_ne (hx : x.2.opcode ≠ .verification) : C.Frozen (posts ++ [x]) ↔ C.Frozen posts := by
  rw [Frozen, Frozen, senders_concat_of_ne hx]

theorem mem_chosen_of_mem_rest {r : IndexSet} (h : C.rest posts = some r) (hd : d ∈ r) : d ∈ C.chosen posts := by
  obtain ⟨first, -, rfl⟩ := Option.map_eq_some_iff.1 h
  exact (IndexSet.mem_filter.1 hd).1

theorem rest_eq_some {r : IndexSet} (hr : C.rest posts = some r) : senders .proof posts ≠ [] := by
  intro hnil
  simp [rest, hnil] at hr

theorem Stocked.length_dealt (h : C.Stocked posts) : (C.dealt posts).length = C.params.n - C.params.f := by
  rw [dealt, List.length_take]
  exact min_eq_left h

theorem vector_getElem (hd : d.toNat < C.params.n) :
    (C.vector posts)[d.toNat]? = some (if d ∈ C.dealt posts then some .success else none) :=
  Params.getElem?_map_dealers _ hd

@[simp] theorem length_vector : (C.vector posts).length = C.params.n := by
  rw [vector, List.length_map, Params.length_dealers]

/-- the tables after one more dealer -/
theorem Staffed.set_dealer [Field F] [AddCommGroup G] [Module F G] [Suite F G] (hC : C.Staffed) {α : Type}
    (entry : Index → α) (hx : x.2.opcode = .contribution) :
    (C.params.dealers.map fun d => if d ∈ senders .contribution posts then some (entry d) else none).set x.1.toNat
      (some (entry x.1)) =
        C.params.dealers.map fun d => if d ∈ senders .contribution (posts ++ [x]) then some (entry d) else none := by
  rw [Params.set_map_dealers _ hC.le_words]
  refine List.map_congr_left fun d _ => ?_
  by_cases hd : d = x.1
  · subst hd
    simp [mem_senders_concat, hx]
  · simp [mem_senders_concat, hd]

end

section

variable [Field F] [AddCommGroup G] [Module F G] [Suite F G] [Wire F] [Wire G] [DecidableEq F] [DecidableEq G]
  {C : Cast F G} {posts posts' : List (Post F G)} {i d : Index} {y : Payload F G} {kind : Opcode}

theorem Orderly.of_append {later : List (Post F G)} (h : C.Orderly (posts ++ later)) : C.Orderly posts := by
  induction later using List.reverseRecOn with
  | nil => rwa [List.append_nil] at h
  | append_singleton later x ih =>
    rw [← List.append_assoc] at h
    generalize hall : posts ++ later ++ [x] = all at h
    cases h with
    | nil => exact absurd hall (List.concat_ne_nil _ _)
    | concat h hi hfirst hmeets =>
      obtain ⟨rfl, -⟩ := List.append_inj' hall rfl
      exact ih h

theorem Orderly.anti (h : C.Orderly posts') (hp : posts <+: posts') : C.Orderly posts := by
  obtain ⟨later, rfl⟩ := hp
  exact h.of_append

theorem Orderly.last (h : C.Orderly (posts ++ [(i, y)])) :
    i ∈ C.honest ∧ i ∉ senders y.opcode posts ∧ C.Meets posts i y := by
  generalize hall : posts ++ [(i, y)] = all at h
  cases h with
  | nil => exact absurd hall (List.concat_ne_nil _ _)
  | concat h hi hfirst hmeets =>
    obtain ⟨rfl, hx⟩ := List.append_inj' hall rfl
    obtain ⟨rfl, rfl⟩ := Prod.mk.inj (List.singleton_inj.1 hx)
    exact ⟨hi, hfirst, hmeets⟩

theorem Orderly.honest (h : C.Orderly posts) (hi : i ∈ senders kind posts) : i ∈ C.honest := by
  induction h with
  | nil => exact absurd hi List.not_mem_nil
  | concat h hi' hfirst hmeets ih =>
    rcases mem_senders_concat.1 hi with hi | ⟨rfl, -⟩
    · exact ih hi
    · exact hi'

theorem Orderly.nodup (h : C.Orderly posts) (kind : Opcode) : (senders kind posts).Nodup := by
  induction h with
  | nil => exact List.nodup_nil
  | @concat posts i y h hi hfirst hmeets ih =>
    by_cases hkind : y.opcode = kind
    · rw [senders_concat_of_eq (x := (i, y)) hkind]
      exact List.nodup_append.2 ⟨ih, List.nodup_singleton _, fun a ha b hb => by
        obtain rfl := List.mem_singleton.1 hb
        rintro rfl
        exact hfirst (hkind ▸ ha)⟩
    · rwa [senders_concat_of_ne (x := (i, y)) hkind]

/-- a message of a kind was due when it was posted -/
theorem Orderly.was_due (h : C.Orderly posts) (hi : i ∈ senders kind posts) (hkind : kind ≠ .contribution) :
    ∃ before, before <+: posts ∧ C.Due before i kind := by
  induction h with
  | nil => exact absurd hi List.not_mem_nil
  | @concat posts j y h hj hfirst hmeets ih =>
    rcases mem_senders_concat.1 hi with hi | ⟨rfl, rfl⟩
    · obtain ⟨before, hbefore, hdue⟩ := ih hi
      exact ⟨before, hbefore.trans (List.prefix_append _ _), hdue⟩
    · refine ⟨posts, List.prefix_append _ _, ?_⟩
      cases y with
      | contribution c => exact absurd rfl hkind
      | verification statuses => exact hmeets.1
      | rebuttal b => exact hmeets.elim
      | proof π => exact hmeets.1
      | bulkProof b =>
        obtain ⟨r, hr, -⟩ := hmeets
        intro hnil
        simp [rest, hnil] at hr

/-- no vector is announced before `n - f` dealers have dealt -/
theorem Orderly.stocked (h : C.Orderly posts) (hne : senders .verification posts ≠ []) : C.Stocked posts := by
  obtain ⟨i, hi⟩ := List.exists_mem_of_ne_nil _ hne
  obtain ⟨before, hbefore, hdue⟩ := h.was_due hi (by decide)
  exact Stocked.mono hdue hbefore

theorem Orderly.stocked_of_frozen (h : C.Orderly posts) (hf : C.Frozen posts) : C.Stocked posts :=
  h.stocked (List.ne_nil_of_length_pos (Nat.zero_lt_of_lt hf.2))

/-- no constant term is proved before QUAL is frozen -/
theorem Orderly.frozen (h : C.Orderly posts) (hne : senders .proof posts ≠ []) : C.Frozen posts := by
  obtain ⟨i, hi⟩ := List.exists_mem_of_ne_nil _ hne
  obtain ⟨before, hbefore, hdue⟩ := h.was_due hi (by decide)
  exact Frozen.mono hdue.1 hbefore

/-- no bulk proof is posted before a constant term is proved -/
theorem Orderly.proved (h : C.Orderly posts) (hne : senders .bulkProof posts ≠ []) : senders .proof posts ≠ [] := by
  obtain ⟨i, hi⟩ := List.exists_mem_of_ne_nil _ hne
  obtain ⟨before, hbefore, hdue⟩ := h.was_due hi (by decide)
  intro hnil
  have hprefix : senders .proof before <+: senders .proof posts := senders_mono hbefore
  rw [hnil, List.prefix_nil] at hprefix
  exact hdue hprefix

/-- R stays as it is -/
theorem Orderly.rest_eq (h : C.Orderly posts) (hp : posts <+: posts') {r : IndexSet} (hr : C.rest posts = some r) :
    C.rest posts' = some r := by
  have hne := rest_eq_some hr
  have hstocked := h.stocked_of_frozen (h.frozen hne)
  obtain ⟨later, hlater⟩ : senders .proof posts <+: senders .proof posts' := senders_mono hp
  rw [rest] at hr ⊢
  rw [← hlater, List.head?_append_of_ne_nil _ hne, hstocked.chosen_eq hp, hr]

/-- what is due stays so -/
theorem Orderly.due_mono (h : C.Orderly posts) (hp : posts <+: posts') (hdue : C.Due posts i kind) :
    C.Due posts' i kind := by
  cases kind with
  | contribution => exact hdue.elim
  | verification => exact Stocked.mono hdue hp
  | rebuttal => exact hdue.elim
  | proof =>
    obtain ⟨hfrozen, hchosen⟩ := hdue
    refine ⟨hfrozen.mono hp, ?_⟩
    rwa [(h.stocked_of_frozen hfrozen).chosen_eq hp]
  | bulkProof =>
    obtain ⟨later, hlater⟩ : senders .proof posts <+: senders .proof posts' := senders_mono hp
    intro hnil
    rw [← hlater] at hnil
    exact hdue (List.append_eq_nil_iff.1 hnil).1

/-- what meets the posts there are meets more of them -/
theorem Orderly.meets_mono (h : C.Orderly posts) (hp : posts <+: posts') (hmeets : C.Meets posts i y) :
    C.Meets posts' i y := by
  cases y with
  | contribution c => exact hmeets
  | verification statuses =>
    obtain ⟨hstocked, rfl⟩ := hmeets
    exact ⟨hstocked.mono hp, (hstocked.vector_eq hp).symm⟩
  | rebuttal b => exact hmeets.elim
  | proof π =>
    obtain ⟨hdue, hproves⟩ := hmeets
    have hdue' : C.Due posts' i .proof := h.due_mono hp hdue
    exact ⟨hdue', hproves⟩
  | bulkProof b =>
    obtain ⟨r, hr, hkeys, hproves⟩ := hmeets
    exact ⟨r, h.rest_eq hp hr, hkeys, hproves⟩

/-- messages that were posted are due -/
theorem Orderly.due (h : C.Orderly posts) (hi : i ∈ senders kind posts) (hkind : kind ≠ .contribution) :
    C.Due posts i kind := by
  obtain ⟨before, hbefore, hdue⟩ := h.was_due hi hkind
  exact (h.anti hbefore).due_mono hbefore hdue

/-! ## how many -/

theorem Orderly.nodup_dealt (h : C.Orderly posts) : (C.dealt posts).Nodup :=
  (h.nodup .contribution).sublist (List.take_sublist _ _)

theorem Orderly.size_chosen (h : C.Orderly posts) (hp : C.params.Admissible) (hs : C.Stocked posts) :
    (C.chosen posts).size = C.params.f + 1 := by
  refine IndexSet.size_least ?_
  rw [IndexSet.size_ofList h.nodup_dealt, hs.length_dealt]
  have := hp.faults_lt
  have := hp.bound
  omega

/-- the dealt ones among all dealers come in order -/
theorem Staffed.filter_dealt (h : C.Staffed) (ho : C.Orderly posts) :
    C.params.dealers.filter (· ∈ C.dealt posts) = (IndexSet.ofList (C.dealt posts)).elems := by
  refine IndexSet.eq_of_mem_iff ((Params.sorted_dealers h.le_words).filter _) (IndexSet.sorted _) fun i => ?_
  rw [List.mem_filter, IndexSet.mem_elems, IndexSet.mem_ofList, Params.mem_dealers]
  refine ⟨fun hi => by simpa using hi.2, fun hi => ⟨?_, by simpa using hi⟩⟩
  exact lt_of_mem_honest (ho.honest (mem_senders_of_mem_dealt hi))

theorem Orderly.length_senders_le (h : C.Orderly posts) (kind : Opcode) :
    (senders kind posts).length ≤ C.honest.length :=
  ((h.nodup kind).subperm fun _ hi => h.honest hi).length_le

end

end Cast

end DistributedKey
