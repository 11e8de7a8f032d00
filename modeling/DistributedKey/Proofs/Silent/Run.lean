/-
Sessions of a cast: any interleaving of dealing and reading by honest and silent shareholders.

- `Follows posts r`: reader `r` holds what the posts that it has read give it, and has posted exactly what was due by then.
- `Runs posts s`: the log of session `s` is `posts`, sealed, in order, and every reader follows them.
- `Runs.moves`: no move fails, and every interleaving keeps the session running.
-/
import DistributedKey.Proofs.Session
import DistributedKey.Proofs.Silent.Reader

namespace DistributedKey

variable {F G : Type}

namespace Cast

/-- all shareholders at the start of an empty log -/
def session (C : Cast F G) : Session F G := { readers := C.params.dealers.map fun i => ⟨C.start i, 0⟩ }

/-- the moves of the shareholders: they deal, and they read what is unread -/
def Own (C : Cast F G) : Move → Prop
  | .deal i => i.toNat < C.params.n
  | .read i => i.toNat < C.params.n
  | .post _ => False

section

variable {posts : List (Post F G)} {r : Reader F G} {x : Post F G}

theorem take_read (hx : posts[r.cursor]? = some x) : posts.take (r.cursor + 1) = posts.take r.cursor ++ [x] := by
  rw [List.take_add_one, hx]
  rfl

end

variable [Field F] [AddCommGroup G] [Module F G] [Suite F G]

section

variable {C : Cast F G}

theorem Staffed.fresh_members (hC : C.Staffed) :
    ∀ s₀ ∈ C.params.dealers.map C.start, s₀.Fresh ∧ s₀.params = C.params := by
  intro s₀ hs₀
  obtain ⟨i, hi, rfl⟩ := List.mem_map.1 hs₀
  exact ⟨hC.fresh i (Params.lt_of_mem_dealers hi), hC.params_eq (Params.lt_of_mem_dealers hi)⟩

theorem Staffed.indices_members (hC : C.Staffed) :
    (C.params.dealers.map C.start).map (·.index) = C.params.dealers := by
  rw [List.map_map]
  exact (List.map_congr_left fun i hi => hC.index_eq i (Params.lt_of_mem_dealers hi)).trans (List.map_id _)

end

variable [DecidableEq G]

structure Follows (C : Cast F G) (posts : List (Post F G)) (r : Reader F G) : Prop where
  cursor_le : r.cursor ≤ posts.length
  holds : C.Holds (Session.index r) (posts.take r.cursor) r.shareholder
  dealt : Session.index r ∈ C.honest →
    (Session.index r ∈ senders .contribution posts ↔ r.shareholder.contributed = true)
  posted : Session.index r ∈ C.honest → ∀ kind, kind ≠ .contribution →
    (Session.index r ∈ senders kind posts ↔ C.Due (posts.take r.cursor) (Session.index r) kind)

section

variable {C : Cast F G} {posts new : List (Post F G)} {r : Reader F G} {i : Index}

theorem Staffed.follows_start (hC : C.Staffed) (hi : i.toNat < C.params.n) : C.Follows [] ⟨C.start i, 0⟩ := by
  have hindex : Session.index (⟨C.start i, 0⟩ : Reader F G) = i := hC.index_eq i hi
  refine ⟨Nat.zero_le _, ?_, fun _ => ?_, fun _ kind _ => ?_⟩
  · rw [hindex]
    exact hC.holds_start hi
  · rw [(hC.fresh i hi).contributed]
    simp
  · have hk := hC.admissible.faults_lt
    have hn := hC.admissible.bound
    refine ⟨fun hmem => absurd hmem List.not_mem_nil, fun hdue => ?_⟩
    cases kind with
    | contribution => exact hdue.elim
    | verification =>
      have hdue : C.params.n - C.params.f ≤ 0 := hdue
      omega
    | rebuttal => exact hdue.elim
    | proof => exact absurd hdue.1.2 (Nat.not_lt_zero _)
    | bulkProof => exact absurd rfl hdue

/-- what the others post does not concern a reader until it reads it -/
theorem Follows.append (h : C.Follows posts r) (hothers : ∀ x ∈ new, x.1 ≠ Session.index r) :
    C.Follows (posts ++ new) r := by
  have htake : (posts ++ new).take r.cursor = posts.take r.cursor := List.take_append_of_le_length h.cursor_le
  have hsenders : ∀ kind, Session.index r ∈ senders kind (posts ++ new) ↔ Session.index r ∈ senders kind posts := by
    intro kind
    rw [senders_append, List.mem_append]
    refine or_iff_left fun hmem => ?_
    obtain ⟨x, hx, hindex⟩ := List.mem_map.1 hmem
    exact hothers x (List.mem_filter.1 hx).1 hindex
  refine ⟨h.cursor_le.trans (by simp), htake.symm ▸ h.holds, fun hi => ?_, fun hi kind hkind => ?_⟩
  · rw [hsenders]
    exact h.dealt hi
  · rw [hsenders, htake]
    exact h.posted hi kind hkind

end

variable [Wire F] [Wire G] [DecidableEq F]

structure Runs (C : Cast F G) (posts : List (Post F G)) (σ : Session F G) : Prop where
  board : σ.board.entries = posts.map Post.seal
  orderly : C.Orderly posts
  indices : σ.readers.map Session.index = C.params.dealers
  follows : ∀ r ∈ σ.readers, C.Follows posts r

variable {C : Cast F G} {posts new : List (Post F G)} {σ σ' : Session F G} {r : Reader F G} {i : Index}

theorem Staffed.runs_start (hC : C.Staffed) : C.Runs [] C.session where
  board := rfl
  orderly := .nil
  indices := by
    rw [session, List.map_map]
    refine (List.map_congr_left fun i hi => ?_).trans (List.map_id _)
    exact hC.index_eq i (Params.lt_of_mem_dealers hi)
  follows r hr := by
    obtain ⟨i, hi, rfl⟩ := List.mem_map.1 hr
    exact hC.follows_start (Params.lt_of_mem_dealers hi)

theorem Runs.index_lt (h : C.Runs posts σ) (hr : r ∈ σ.readers) : (Session.index r).toNat < C.params.n :=
  Params.mem_dealers.1 (h.indices ▸ List.mem_map_of_mem hr)

theorem Runs.exists_reader (h : C.Runs posts σ) (hi : i.toNat < C.params.n) :
    ∃ r ∈ σ.readers, σ.reader? i = some r ∧ Session.index r = i := by
  obtain ⟨r, hr⟩ := Session.exists_reader? (h.indices.symm ▸ Params.mem_dealers.2 hi)
  exact ⟨r, (Session.mem_of_reader? hr).1, hr, (Session.mem_of_reader? hr).2⟩

/-! ## one move -/

/-- a reader takes its place again and posts what it answers -/
theorem Runs.next (h : C.Runs posts σ) (horderly : C.Orderly (posts ++ new))
    (hby : ∀ x ∈ new, x.1 = Session.index r) (hfollows : C.Follows (posts ++ new) r) :
    C.Runs (posts ++ new) ((σ.update r).postAll (new.map Post.seal)) where
  board := by rw [Session.entries_postAll, Session.board_update, h.board, List.map_append]
  orderly := horderly
  indices := by rw [Session.readers_postAll, Session.map_index_update, h.indices]
  follows r' hr' := by
    rw [Session.readers_postAll] at hr'
    rcases Session.mem_update hr' with rfl | ⟨hr', hindex⟩
    · exact hfollows
    · exact (h.follows r' hr').append fun x hx heq => hindex (heq.symm.trans (hby x hx))

section

variable {x : Post F G} {s' : Shareholder F G}

/-- a reader goes on to the next post and has nothing to say to this one, or is silent -/
theorem Follows.advance (h : C.Follows posts r) (ho : C.Orderly posts) (hx : posts[r.cursor]? = some x)
    (hidentity : s'.identity = r.shareholder.identity) (hcontributed : s'.contributed = r.shareholder.contributed)
    (hholds : C.Holds (Session.index r) (posts.take r.cursor ++ [x]) s')
    (hquiet : Session.index r ∈ C.honest → C.Replies (Session.index r) (posts.take r.cursor) x []) :
    C.Follows posts ⟨s', r.cursor + 1⟩ := by
  have hindex : Session.index (⟨s', r.cursor + 1⟩ : Reader F G) = Session.index r :=
    Shareholder.index_eq_of_identity hidentity
  have hread := take_read hx
  refine ⟨(List.getElem?_eq_some_iff.1 hx).1, ?_, fun hhonest => ?_, fun hhonest kind hkind => ?_⟩
  · rw [hindex, hread]
    exact hholds
  · rw [hindex] at hhonest ⊢
    rw [hcontributed]
    exact h.dealt hhonest
  · rw [hindex] at hhonest ⊢
    rw [hread, h.posted hhonest kind hkind]
    constructor
    · intro hdue
      exact (ho.anti (List.take_prefix _ _)).due_mono (List.prefix_append _ _) hdue
    · intro hdue
      rcases (hquiet hhonest).complete kind hdue with hdue | ⟨y, hy, -⟩
      · exact hdue
      · exact absurd hy List.not_mem_nil

/-- an honest reader goes on to the next post and answers this one -/
theorem Follows.answer (h : C.Follows posts r) (ho : C.Orderly posts) (hx : posts[r.cursor]? = some x)
    (hidentity : s'.identity = r.shareholder.identity) (hcontributed : s'.contributed = r.shareholder.contributed)
    (hholds : C.Holds (Session.index r) (posts.take r.cursor ++ [x]) s') (hhonest : Session.index r ∈ C.honest)
    {y : Payload F G} (hreplies : C.Replies (Session.index r) (posts.take r.cursor) x [y]) :
    C.Orderly (posts ++ [(Session.index r, y)]) ∧ C.Follows (posts ++ [(Session.index r, y)]) ⟨s', r.cursor + 1⟩ := by
  have hindex : Session.index (⟨s', r.cursor + 1⟩ : Reader F G) = Session.index r :=
    Shareholder.index_eq_of_identity hidentity
  have hlt := (List.getElem?_eq_some_iff.1 hx).1
  have hread := take_read hx
  have hprefix : posts.take r.cursor ++ [x] <+: posts := hread ▸ List.take_prefix _ _
  have horderly := ho.anti hprefix
  obtain ⟨hnew, hdue⟩ := hreplies.due y List.mem_cons_self
  have hmeets := horderly.meets_mono hprefix (hreplies.meets y List.mem_cons_self)
  have hy : y.opcode ≠ .contribution := by
    intro heq
    rw [heq] at hdue
    exact hdue
  have hfirst : Session.index r ∉ senders y.opcode posts := fun hmem => hnew ((h.posted hhonest y.opcode hy).1 hmem)
  have htake : (posts ++ [(Session.index r, y)]).take (r.cursor + 1) = posts.take r.cursor ++ [x] := by
    rw [List.take_append_of_le_length hlt, hread]
  refine ⟨ho.concat hhonest hfirst hmeets, Nat.le_trans hlt (by simp), ?_, fun _ => ?_, fun _ kind hkind => ?_⟩
  · rw [hindex, htake]
    exact hholds
  · rw [hindex, hcontributed, senders_concat_of_ne hy]
    exact h.dealt hhonest
  · rw [hindex, htake, mem_senders_concat, h.posted hhonest kind hkind]
    constructor
    · rintro (hdue' | ⟨-, rfl⟩)
      · exact horderly.of_append.due_mono (List.prefix_append _ _) hdue'
      · exact hdue
    · intro hdue'
      rcases hreplies.complete kind hdue' with hdue' | ⟨w, hw, rfl⟩
      · exact Or.inl hdue'
      · obtain rfl := List.mem_singleton.1 hw
        exact Or.inr ⟨rfl, rfl⟩

end

variable [Sampled F] [LawfulWire F]

/-- dealing posts a contribution, once, if the dealer is honest -/
theorem Follows.deal (h : C.Follows posts r) (hC : C.Staffed) (hi : (Session.index r).toNat < C.params.n)
    (ho : C.Orderly posts) :
    ∃ new : List (Post F G), r.shareholder.contribute.1.toList.map (·.toEnvelope (Session.index r)) = new.map Post.seal ∧
      (∀ x ∈ new, x.1 = Session.index r) ∧ C.Orderly (posts ++ new) ∧
        C.Follows (posts ++ new) ⟨r.shareholder.contribute.2, r.cursor⟩ := by
  have hindex : Session.index (⟨r.shareholder.contribute.2, r.cursor⟩ : Reader F G) = Session.index r :=
    Shareholder.index_eq_of_identity (Shareholder.contribute_identity _)
  have hbehavior : r.shareholder.behavior = (C.start (Session.index r)).behavior :=
    congrArg Identity.behavior h.holds.identity
  have hdone := Shareholder.contributed_contribute r.shareholder
  by_cases hdeals : Session.index r ∈ C.honest ∧ r.shareholder.contributed = false
  · obtain ⟨hhonest, hcontributed⟩ := hdeals
    obtain ⟨c, hc, hdeals⟩ := hC.deals hhonest h.holds.identity hcontributed
    have hfirst : Session.index r ∉ senders .contribution posts := by
      intro hmem
      rw [(h.dealt hhonest).1 hmem] at hcontributed
      cases hcontributed
    set x : Post F G := (Session.index r, .contribution c) with hx
    refine ⟨[x], by rw [hc]; rfl, fun z hz => by rw [List.mem_singleton.1 hz], ho.concat hhonest hfirst hdeals, ?_⟩
    have htake : (posts ++ [x]).take r.cursor = posts.take r.cursor := List.take_append_of_le_length h.cursor_le
    refine ⟨h.cursor_le.trans (by simp), ?_, fun _ => ?_, fun _ kind hkind => ?_⟩
    · rw [hindex, htake]
      exact h.holds.contribute
    · rw [hindex]
      exact ⟨fun _ => hdone, fun _ => mem_senders_concat.2 (Or.inr ⟨rfl, rfl⟩)⟩
    · rw [hindex, htake, senders_concat_of_ne (Ne.symm hkind)]
      exact h.posted hhonest kind hkind
  · have hnone : r.shareholder.contribute.1 = none := by
      refine Shareholder.contribute_none ?_
      rcases hC.behavior _ hi with hb | hb
      · refine Or.inl (by_contra fun hnot => hdeals ⟨mem_honest.2 ⟨hi, hb⟩, by simpa using hnot⟩)
      · exact Or.inr (hbehavior.trans hb)
    refine ⟨[], by rw [hnone]; rfl, fun z hz => absurd hz List.not_mem_nil, by rwa [List.append_nil], ?_⟩
    rw [List.append_nil]
    refine ⟨h.cursor_le, ?_, fun hhonest => ?_, fun hhonest kind hkind => ?_⟩
    · rw [hindex]
      exact h.holds.contribute
    · rw [hindex] at hhonest ⊢
      have hcontributed : r.shareholder.contributed = true :=
        by_contra fun hnot => hdeals ⟨hhonest, by simpa using hnot⟩
      exact ⟨fun _ => hdone, fun _ => (h.dealt hhonest).2 hcontributed⟩
    · rw [hindex] at hhonest ⊢
      exact h.posted hhonest kind hkind

theorem Runs.deal (h : C.Runs posts σ) (hC : C.Staffed) (hr : σ.reader? i = some r) : ∃ new : List (Post F G),
    (∀ x ∈ new, x.1 = i) ∧
    σ.move (.deal i) = some ((σ.update ⟨r.shareholder.contribute.2, r.cursor⟩).postAll (new.map Post.seal)) ∧
      C.Runs (posts ++ new) ((σ.update ⟨r.shareholder.contribute.2, r.cursor⟩).postAll (new.map Post.seal)) := by
  obtain ⟨hmem, rfl⟩ := Session.mem_of_reader? hr
  have hi := h.index_lt hmem
  have hfollows := h.follows r hmem
  obtain ⟨new, hnew, hby, horderly, hnext⟩ := hfollows.deal hC hi h.orderly
  have hindex : Session.index (⟨r.shareholder.contribute.2, r.cursor⟩ : Reader F G) = Session.index r :=
    Shareholder.index_eq_of_identity (Shareholder.contribute_identity _)
  exact ⟨new, hby, by rw [Session.move_deal hr, hnew], h.next horderly (fun x hx => (hby x hx).trans hindex.symm) hnext⟩

variable [LawfulWire G]

/-- reading posts what has come to be due, if the reader is honest -/
theorem Follows.read (h : C.Follows posts r) (hC : C.Staffed)
    (hinj : Set.InjOn (xCoordinate (F := F)) {i : Index | i.toNat < C.params.n})
    (hi : (Session.index r).toNat < C.params.n) (ho : C.Orderly posts) (hx : posts[r.cursor]? = some x) :
    ∃ response, r.shareholder.deliver x.seal = some response ∧ ∃ new : List (Post F G),
      response.outgoing.map (·.toEnvelope (Session.index r)) = new.map Post.seal ∧
        (∀ x ∈ new, x.1 = Session.index r) ∧ C.Orderly (posts ++ new) ∧
          C.Follows (posts ++ new) ⟨response.shareholder, r.cursor + 1⟩ := by
  have horderly : C.Orderly (posts.take r.cursor ++ [x]) := ho.anti (take_read hx ▸ List.take_prefix _ _)
  obtain ⟨response, hresponse, hd⟩ := h.holds.valid.delivered x.seal
  obtain ⟨hholds, out, hreplies, houtgoing⟩ := h.holds.delivered hC hinj hi horderly hd
  refine ⟨response, hresponse, ?_⟩
  rcases hC.behavior _ hi with hb | hb
  · have hhonest := mem_honest.2 ⟨hi, hb⟩
    rw [hb, if_neg (by decide)] at houtgoing
    rw [houtgoing]
    rcases out with _ | ⟨y, _ | ⟨z, rest⟩⟩
    · refine ⟨[], rfl, fun z hz => absurd hz List.not_mem_nil, by rwa [List.append_nil], ?_⟩
      rw [List.append_nil]
      exact h.advance ho hx hd.identity hd.contributed hholds fun _ => hreplies
    · obtain ⟨hnext, hfollows⟩ := h.answer ho hx hd.identity hd.contributed hholds hhonest hreplies
      exact ⟨[(Session.index r, y)], rfl, fun w hw => by rw [List.mem_singleton.1 hw], hnext, hfollows⟩
    · have := hreplies.single
      simp at this
  · have hnot : Session.index r ∉ C.honest := fun hmem => by
      rw [(mem_honest.1 hmem).2] at hb
      cases hb
    rw [hb, if_pos rfl] at houtgoing
    rw [houtgoing]
    refine ⟨[], rfl, fun z hz => absurd hz List.not_mem_nil, by rwa [List.append_nil], ?_⟩
    rw [List.append_nil]
    exact h.advance ho hx hd.identity hd.contributed hholds fun hmem => absurd hmem hnot

theorem Runs.read (h : C.Runs posts σ) (hC : C.Staffed)
    (hinj : Set.InjOn (xCoordinate (F := F)) {i : Index | i.toNat < C.params.n}) (hr : σ.reader? i = some r)
    (hlt : r.cursor < posts.length) : ∃ (s' : Shareholder F G) (new : List (Post F G)), (∀ x ∈ new, x.1 = i) ∧
      σ.move (.read i) = some ((σ.update ⟨s', r.cursor + 1⟩).postAll (new.map Post.seal)) ∧
        C.Runs (posts ++ new) ((σ.update ⟨s', r.cursor + 1⟩).postAll (new.map Post.seal)) := by
  obtain ⟨hmem, rfl⟩ := Session.mem_of_reader? hr
  have hi := h.index_lt hmem
  have hfollows := h.follows r hmem
  have hx := List.getElem?_eq_getElem hlt
  obtain ⟨response, hresponse, new, hnew, hby, horderly, hnext⟩ := hfollows.read hC hinj hi h.orderly hx
  have hentry : σ.board.get? r.cursor = some (posts[r.cursor].seal) := by
    rw [Board.get?, h.board, List.getElem?_map, hx]
    rfl
  have hd := hfollows.holds.valid.delivered_of_deliver hresponse
  have hindex : Session.index (⟨response.shareholder, r.cursor + 1⟩ : Reader F G) = Session.index r :=
    Shareholder.index_eq_of_identity hd.identity
  exact ⟨response.shareholder, new, hby, by rw [Session.move_read hr hentry hresponse, hnew],
    h.next horderly (fun x hx => (hby x hx).trans hindex.symm) hnext⟩

/-- no move of a shareholder fails, and what it posts is its own -/
theorem Runs.move (h : C.Runs posts σ) (hC : C.Staffed)
    (hinj : Set.InjOn (xCoordinate (F := F)) {i : Index | i.toNat < C.params.n}) {m : Move} (hm : C.Own m) :
    ∃ σ' new, σ.move m = some σ' ∧ C.Runs (posts ++ new) σ' ∧ ∀ x ∈ new, m = .deal x.1 ∨ m = .read x.1 := by
  cases m with
  | post e => exact hm.elim
  | deal i =>
    obtain ⟨r, -, hr, -⟩ := h.exists_reader hm
    obtain ⟨new, hby, hmove, hnext⟩ := h.deal hC hr
    exact ⟨_, new, hmove, hnext, fun x hx => Or.inl (congrArg Move.deal (hby x hx).symm)⟩
  | read i =>
    obtain ⟨r, hmem, hr, -⟩ := h.exists_reader hm
    rcases (h.follows r hmem).cursor_le.lt_or_eq with hlt | heq
    · obtain ⟨s', new, hby, hmove, hnext⟩ := h.read hC hinj hr hlt
      exact ⟨_, new, hmove, hnext, fun x hx => Or.inr (congrArg Move.read (hby x hx).symm)⟩
    · refine ⟨σ, [], Session.move_read_none hr ?_, by rwa [List.append_nil], fun x hx => absurd hx List.not_mem_nil⟩
      rw [Board.get?, h.board, heq, List.getElem?_eq_none (by rw [List.length_map])]

/-- **Every interleaving** of moves of the shareholders keeps the session running. -/
theorem Runs.moves (h : C.Runs posts σ) (hC : C.Staffed)
    (hinj : Set.InjOn (xCoordinate (F := F)) {i : Index | i.toNat < C.params.n}) {ms : List Move}
    (hms : ∀ m ∈ ms, C.Own m) : ∃ σ' posts', σ.moves ms = some σ' ∧ C.Runs posts' σ' := by
  induction ms generalizing σ posts with
  | nil => exact ⟨σ, posts, rfl, h⟩
  | cons m ms ih =>
    obtain ⟨mid, new, hmid, hnext, -⟩ := h.move hC hinj (hms m List.mem_cons_self)
    obtain ⟨σ', posts', hmoves, hruns⟩ := ih hnext fun m' hm' => hms m' (List.mem_cons_of_mem _ hm')
    exact ⟨σ', posts', Session.moves_cons_of_move hmid hmoves, hruns⟩

/-! ## what each reader has been through -/

omit [LawfulWire F] [LawfulWire G] in
/-- the shareholders post what they returned only -/
theorem Staffed.faithful (hC : C.Staffed) {ms : List Move} (hms : ∀ m ∈ ms, C.Own m)
    (hmoves : C.session.moves ms = some σ) : σ.Faithful (C.params.dealers.map C.start) := by
  have hnodup : ((C.params.dealers.map C.start).map (·.index)).Nodup := hC.indices_members.symm ▸ hC.indices
  have hallowed : ∀ m ∈ ms, Session.Allowed (C.params.dealers.map C.start) m := by
    intro m hm
    have hown := hms m hm
    cases m with
    | deal i =>
      rw [Session.Allowed, hC.indices_members]
      exact Params.mem_dealers.2 hown
    | read i =>
      rw [Session.Allowed, hC.indices_members]
      exact Params.mem_dealers.2 hown
    | post e => exact hown.elim
  have hstart : Session.Faithful (C.params.dealers.map C.start) C.session := by
    have hfaithful := Session.faithful_start (C.params.dealers.map C.start)
    rwa [List.map_map] at hfaithful
  exact hstart.moves (fun s₀ hs₀ => (hC.fresh_members s₀ hs₀).1) hnodup hallowed hmoves

omit [LawfulWire F] [LawfulWire G] in
/-- each reader has a history over the entries that it has read -/
theorem Staffed.exists_history (hC : C.Staffed) (hfaithful : σ.Faithful (C.params.dealers.map C.start))
    (hr : r ∈ σ.readers) :
    ∃ out, History (C.start (Session.index r)) (σ.board.entries.take r.cursor) r.shareholder out := by
  obtain ⟨-, s₀, hs₀, out, hindex, hs⟩ := hfaithful.history r hr
  obtain ⟨i, hi, rfl⟩ := List.mem_map.1 hs₀
  rw [hC.index_eq i (Params.lt_of_mem_dealers hi)] at hindex
  exact ⟨out, hindex ▸ hs⟩

end Cast

end DistributedKey
