/-
Which alerts a run raises in which nobody deviates from the protocol but by silence.

There is one message that such a run may find fault with: a bulk proof of somebody who has not dealt yet. A shareholder
proves its shares when R is frozen, whether it has dealt by then or not, and as long as the public key is unknown every
reader refuses a bulk proof without commitments of its sender.

- `Tally`: who has dealt, how many bulk proofs count, and which came too early, told by the log alone.
- `alerts_eq_early`: for every interleaving, the alerts of a shareholder are one for each bulk proof that came too early
  in what it has read, and nothing else. Where everybody deals before it proves, there is none.
- `Runs.exists_early`: if one shareholder deals last, its bulk proof may well be the first.
- `latecomer_alerted`: so four honest shareholders can run into an alert.
-/
import DistributedKey.Proofs.Silent.Rest
import DistributedKey.Proofs.Silent.Uniform

namespace DistributedKey

open Checked

/-! ## bulk proofs that come too early -/

/-- what a log says about bulk proofs -/
structure Tally where
  /-- who has dealt -/
  dealers : List Index := []
  /-- how many bulk proofs came from somebody who had dealt, up to the number that makes the public key -/
  counted : Nat := 0
  /-- who posted a bulk proof before dealing, while the public key was unknown -/
  early : List Index := []

namespace Tally

def add (k : Nat) (t : Tally) (e : Envelope) : Tally :=
  if e.opcode = Opcode.contribution.code then { t with dealers := e.sender :: t.dealers }
  else if e.opcode = Opcode.bulkProof.code ∧ t.counted < k then
    if e.sender ∈ t.dealers then { t with counted := t.counted + 1 } else { t with early := t.early ++ [e.sender] }
  else t

/-- the tally of a log, if `k` bulk proofs make the public key -/
def ofLog (k : Nat) (log : List Envelope) : Tally := log.foldl (add k) {}

variable {k : Nat} {log before : List Envelope} {e : Envelope} {d : Index}

theorem ofLog_concat : ofLog k (log ++ [e]) = (ofLog k log).add k e := List.foldl_concat _ _ _ _

theorem mem_dealers : d ∈ (ofLog k log).dealers ↔ ∃ e ∈ log, e.opcode = Opcode.contribution.code ∧ e.sender = d := by
  induction log using List.reverseRecOn with
  | nil => simp [ofLog]
  | append_singleton log e ih =>
    have hcases : d ∈ (ofLog k (log ++ [e])).dealers ↔
        d ∈ (ofLog k log).dealers ∨ e.opcode = Opcode.contribution.code ∧ e.sender = d := by
      rw [ofLog_concat, add]
      split_ifs with hkind <;> simp [hkind, or_comm, eq_comm]
    rw [hcases, ih]
    simp [or_and_right, exists_or]

/-- nothing comes too early where everybody deals before it proves -/
theorem early_eq_nil (h : ∀ before e, before ++ [e] <+: log → e.opcode = Opcode.bulkProof.code →
    ∃ e' ∈ before, e'.opcode = Opcode.contribution.code ∧ e'.sender = e.sender) : (ofLog k log).early = [] := by
  induction log using List.reverseRecOn with
  | nil => rfl
  | append_singleton log e ih =>
    have hbefore := ih fun before e' hprefix => h before e' <| hprefix.trans (List.prefix_append _ _)
    rw [ofLog_concat, add]
    split_ifs with hcontribution hbulk hdealt
    · exact hbefore
    · exact hbefore
    · exact absurd (mem_dealers.2 (h log e (List.prefix_refl _) hbulk.1)) hdealt
    · exact hbefore

end Tally

variable {F G : Type}

namespace Cast

variable {C : Cast F G} {posts : List (Post F G)} {x : Post F G} {σ : Session F G} {s : Shareholder F G}
  {r : Reader F G} {i j : Index} {y : Payload F G} {v : View G}

section

variable [Wire F] [Wire G]

/-- the tally of the posts -/
def tally (C : Cast F G) (posts : List (Post F G)) : Tally := .ofLog C.params.k (posts.map Post.seal)

theorem mem_dealers_tally : i ∈ (C.tally posts).dealers ↔ i ∈ senders .contribution posts := by
  rw [tally, Tally.mem_dealers, senders, List.mem_map]
  constructor
  · rintro ⟨e, he, hkind, rfl⟩
    obtain ⟨x, hx, rfl⟩ := List.mem_map.1 he
    exact ⟨x, List.mem_filter.2 ⟨hx, by simpa using Opcode.code_inj.1 hkind⟩, rfl⟩
  · rintro ⟨x, hx, rfl⟩
    obtain ⟨hx, hkind⟩ := List.mem_filter.1 hx
    exact ⟨x.seal, List.mem_map_of_mem hx, Opcode.code_inj.2 (by simpa using hkind), rfl⟩

theorem tally_concat : C.tally (posts ++ [x]) = (C.tally posts).add C.params.k x.seal := by
  rw [tally, List.map_append, List.map_singleton, Tally.ofLog_concat, tally]

/-- only a bulk proof is counted, or comes too early -/
theorem tally_concat_of_ne (posts : List (Post F G)) {x : Post F G} (hx : x.2.opcode ≠ .bulkProof) :
    (C.tally (posts ++ [x])).counted = (C.tally posts).counted ∧
      (C.tally (posts ++ [x])).early = (C.tally posts).early := by
  have hkind : x.seal.opcode ≠ Opcode.bulkProof.code := fun heq => hx (Opcode.code_inj.1 heq)
  rw [tally_concat, Tally.add]
  split_ifs with hcontribution hbulk
  · exact ⟨rfl, rfl⟩
  · exact absurd hbulk.1 hkind
  · exact absurd hbulk.1 hkind
  · exact ⟨rfl, rfl⟩

theorem tally_concat_bulkProof {b : BulkProof F G} : C.tally (posts ++ [(j, .bulkProof b)]) =
    if (C.tally posts).counted < C.params.k then
      if j ∈ senders .contribution posts then { C.tally posts with counted := (C.tally posts).counted + 1 }
      else { C.tally posts with early := (C.tally posts).early ++ [j] }
    else C.tally posts := by
  have hopcode : (Post.seal (j, (.bulkProof b : Payload F G))).opcode = Opcode.bulkProof.code := rfl
  have hsender : (Post.seal (j, (.bulkProof b : Payload F G))).sender = j := rfl
  rw [tally_concat, Tally.add, hopcode, hsender, if_neg (by decide)]
  simp only [true_and, mem_dealers_tally]

/-- the only bulk proof there is comes too early if its author has not dealt -/
theorem tally_of_early (hk : 0 < C.params.k) (hlate : i ∉ senders .contribution posts)
    (hall : ∀ j ∈ senders .bulkProof posts, j = i) :
    (C.tally posts).counted = 0 ∧ (C.tally posts).early = senders .bulkProof posts := by
  induction posts using List.reverseRecOn with
  | nil => exact ⟨rfl, rfl⟩
  | append_singleton posts x ih =>
    obtain ⟨j, y⟩ := x
    obtain ⟨hcounted, hearly⟩ := ih (fun hmem => hlate (mem_senders_concat.2 (Or.inl hmem)))
      fun j hj => hall j (mem_senders_concat.2 (Or.inl hj))
    by_cases hy : y.opcode = .bulkProof
    · obtain ⟨b, rfl⟩ := Payload.exists_bulkProof hy
      obtain rfl : j = i := hall j (mem_senders_concat.2 (Or.inr ⟨rfl, rfl⟩))
      have hlate' : j ∉ senders .contribution posts := fun hmem => hlate (mem_senders_concat.2 (Or.inl hmem))
      have hsenders : senders .bulkProof (posts ++ [(j, (.bulkProof b : Payload F G))]) =
          senders .bulkProof posts ++ [j] := senders_concat_of_eq rfl
      rw [tally_concat_bulkProof, if_pos (hcounted ▸ hk), if_neg hlate', hsenders]
      exact ⟨hcounted, congrArg (· ++ [j]) hearly⟩
    · obtain ⟨hcounted', hearly'⟩ := C.tally_concat_of_ne posts (x := (j, y)) hy
      rw [hcounted', hearly', senders_concat_of_ne hy]
      exact ⟨hcounted, hearly⟩

end

variable [Field F] [AddCommGroup G] [Module F G] [Suite F G] [Wire F] [Wire G] [Sampled F] [DecidableEq F]
  [DecidableEq G]

/-! ## one more post -/

/-- what the view takes in, no reaction finds fault with -/
theorem Holds.alerts_react (h : C.Holds i posts s) (hC : C.Staffed) (hi : i.toNat < C.params.n)
    (ho : C.Orderly (posts ++ [(j, y)])) {response : Shareholder.Response F G}
    (hreact : Shareholder.react { s with view := v } s.view j y = .ok response) :
    response.shareholder.alerts = s.alerts := by
  cases y with
  | contribution c =>
    obtain ⟨hd, -, hdeals⟩ := ho.last
    have hjudge : Shareholder.judge { s with view := v } c = .ok (C.pair j i) := h.judge hC hi hd hdeals
    obtain ⟨-, ⟨cause, herror, -⟩ | ⟨pair, s₁, out, -, -, hannounce, rfl⟩⟩ := Shareholder.onContribution_cases hreact
    · rw [hjudge] at herror
      cases herror
    · rw [Shareholder.announce_frame hannounce]
  | verification statuses => rw [Shareholder.onVerification_frame hreact]
  | rebuttal b => exact ho.last.2.2.elim
  | proof π => rw [Shareholder.onProof_frame hreact]
  | bulkProof b =>
    simp only [Shareholder.react, pure_eq_ok] at hreact
    rw [← hreact]

omit [Wire F] [Sampled F] in
/-- one more bulk proof of somebody who has dealt brings the public key, or counts -/
theorem Shows.counts_bulkProof (hs : C.Shows posts v) {b : BulkProof F G} {v' : View G} {notices : List Notice}
    (hs' : C.Shows (posts ++ [(j, .bulkProof b)]) v') (hunknown : v.publicKey = none)
    (hstep : v.step C.params j (.bulkProof b) = .ok (v', notices)) :
    v.uSet.size + 1 = if v'.publicKey.isSome then C.params.k else v'.uSet.size := by
  rw [View.step, View.takeBulkProof_eq_ok
    hs.valid.provenShares_eq_commitments] at hstep
  rcases hstep with ⟨hknown, -⟩ | ⟨-, c, r, points, -, -, -, -, hnew, htaken⟩
  · rw [hunknown] at hknown
    cases hknown
  have hsize : (v.withBulkProof j points).uSet.size = v.uSet.size + 1 := IndexSet.size_insert hnew
  split_ifs at htaken with hk
  · -- the last one that is needed
    obtain ⟨-, hframe⟩ := View.reconstruct_frame htaken
    have hsize' : v'.uSet.size = C.params.k := by rw [hframe]; exact hk
    have hkey : v'.publicKey.isSome := by
      rcases hs'.key with ⟨-, hkey⟩ | ⟨-, hlt, -⟩
      · rw [hkey]
        rfl
      · omega
    rw [if_pos hkey]
    omega
  · obtain ⟨rfl, -⟩ := Prod.mk.inj (Except.ok.inj htaken)
    have hnone : (v.withBulkProof j points).publicKey = none := hunknown
    rw [hnone, hsize]
    rfl

/-- a shareholder's alerts, and how far its view is with bulk proofs, are those of the tally -/
structure Tallies (C : Cast F G) (i : Index) (posts : List (Post F G)) (s : Shareholder F G) : Prop where
  counted : (C.tally posts).counted = if s.view.publicKey.isSome then C.params.k else s.view.uSet.size
  alerts : s.alerts = (C.tally posts).early.map fun j => ⟨i, j, .stateViolation⟩

variable [LawfulWire F] [LawfulWire G]

/-- what the view takes in is the new view, and raises no alert -/
theorem Holds.taken (h : C.Holds i posts s) (hC : C.Staffed) (hi : i.toNat < C.params.n)
    (ho : C.Orderly (posts ++ [x])) {response : Shareholder.Response F G} (hr : s.deliver x.seal = some response)
    {v' : View G} {notices : List Notice} (hstep : s.view.step C.params x.1 x.2 = .ok (v', notices)) :
    response.shareholder.view = v' ∧ response.shareholder.alerts = s.alerts := by
  have hsender : x.seal.sender.toNat < s.params.n := (h.params_eq hC hi).symm ▸ lt_of_mem_honest ho.last.1
  obtain ⟨r', hreact, hshareholder, -⟩ := (h.valid.delivered_of_deliver hr).reacts (ho.payload_seal hC) hsender
    ((h.params_eq hC hi).symm ▸ hstep)
  rw [hshareholder]
  exact ⟨Shareholder.react_view hreact, h.alerts_react hC hi ho hreact⟩

/-- one more bulk proof raises an alert if it comes too early -/
theorem Holds.tallies_bulkProof (h : C.Holds i posts s) (ht : C.Tallies i posts s) (hC : C.Staffed)
    (hinj : Set.InjOn (xCoordinate (F := F)) {i : Index | i.toNat < C.params.n}) (hi : i.toNat < C.params.n)
    {b : BulkProof F G} (ho : C.Orderly (posts ++ [(j, .bulkProof b)])) {response : Shareholder.Response F G}
    (hr : s.deliver (Post.seal (j, (.bulkProof b : Payload F G))) = some response) :
    C.Tallies i (posts ++ [(j, .bulkProof b)]) response.shareholder := by
  by_cases hknown : s.view.publicKey.isSome
  · -- the public key is known, and the bulk proof is not looked at
    obtain ⟨hview, halerts⟩ := h.taken hC hi ho hr (View.step_bulkProof_of_known hknown)
    have hcounted : (C.tally posts).counted = C.params.k := by rw [ht.counted, if_pos hknown]
    have hsame : C.tally (posts ++ [(j, .bulkProof b)]) = C.tally posts := by
      rw [tally_concat_bulkProof, if_neg (hcounted ▸ lt_irrefl _)]
    exact ⟨by rw [hsame, hview]; exact ht.counted, by rw [hsame, halerts]; exact ht.alerts⟩
  · have hunknown : s.view.publicKey = none := by simpa using hknown
    obtain ⟨-, hfew, -⟩ := h.shows.key.resolve_left fun hkey => by
      rw [hunknown] at hkey
      cases hkey.2
    have hcounted : (C.tally posts).counted = s.view.uSet.size := by rw [ht.counted, if_neg hknown]
    have hroom : (C.tally posts).counted < C.params.k := hcounted ▸ hfew
    by_cases hdealt : j ∈ senders .contribution posts
    · obtain ⟨v', hstep, hs'⟩ := h.shows.takeBulkProof hC hinj ho hunknown hdealt
      obtain ⟨hview, halerts⟩ := h.taken hC hi ho hr hstep
      have htally : C.tally (posts ++ [(j, .bulkProof b)]) =
          { C.tally posts with counted := (C.tally posts).counted + 1 } := by
        rw [tally_concat_bulkProof, if_pos hroom, if_pos hdealt]
      refine ⟨?_, by rw [htally, halerts]; exact ht.alerts⟩
      rw [htally, hview, ← h.shows.counts_bulkProof hs' hunknown hstep, ← hcounted]
    · have hj : j.toNat < C.params.n := lt_of_mem_honest ho.last.1
      have hparams := (h.params_eq hC hi).symm
      have hhandle := Shareholder.handle_of_step_error (ho.payload_seal hC) (hparams ▸ hj)
        (hparams ▸ h.shows.refuses_bulkProof hj hunknown hdealt b)
      obtain rfl := Option.some.inj ((Shareholder.deliver_of_refused hhandle).symm.trans hr)
      have htally : C.tally (posts ++ [(j, .bulkProof b)]) =
          { C.tally posts with early := (C.tally posts).early ++ [j] } := by
        rw [tally_concat_bulkProof, if_pos hroom, if_neg hdealt]
      refine ⟨by rw [htally]; exact ht.counted, ?_⟩
      rw [htally, List.map_append, ← ht.alerts, ← h.index_eq hC hi]
      rfl

/-- **One more post is read**: an alert is raised if it is a bulk proof that comes too early. -/
theorem Holds.tallies_concat (h : C.Holds i posts s) (ht : C.Tallies i posts s) (hC : C.Staffed)
    (hinj : Set.InjOn (xCoordinate (F := F)) {i : Index | i.toNat < C.params.n}) (hi : i.toNat < C.params.n)
    (ho : C.Orderly (posts ++ [x])) {response : Shareholder.Response F G} (hr : s.deliver x.seal = some response) :
    C.Tallies i (posts ++ [x]) response.shareholder := by
  by_cases hx : x.2.opcode = .bulkProof
  · obtain ⟨j, y⟩ := x
    obtain ⟨b, rfl⟩ := Payload.exists_bulkProof hx
    exact h.tallies_bulkProof ht hC hinj hi ho hr
  · obtain ⟨v', hstep, -⟩ := h.shows.takes hC ho hx
    obtain ⟨hview, halerts⟩ := h.taken hC hi ho hr hstep
    obtain ⟨huSet, -, hkey, -⟩ := View.step_key_frame h.shows.valid hstep hx
    obtain ⟨hcounted, hearly⟩ := C.tally_concat_of_ne posts hx
    exact ⟨by rw [hcounted, hview, huSet, hkey]; exact ht.counted, by rw [hearly, halerts]; exact ht.alerts⟩

/-- **What a history of an orderly log has raised alerts about.** -/
theorem Orderly.tallies (ho : C.Orderly posts) (hC : C.Staffed)
    (hinj : Set.InjOn (xCoordinate (F := F)) {i : Index | i.toNat < C.params.n}) (hi : i.toNat < C.params.n)
    {out : List (Payload F G)} (h : History (C.start i) (posts.map Post.seal) s out) :
    C.Holds i posts s ∧ C.Tallies i posts s := by
  generalize hlog : posts.map Post.seal = log at h
  induction h generalizing posts with
  | start =>
    obtain rfl := List.map_eq_nil_iff.1 hlog
    refine ⟨hC.holds_start hi, ?_, (hC.fresh i hi).alerts⟩
    rw [(hC.fresh i hi).view]
    rfl
  | deal h ih =>
    obtain ⟨hholds, ht⟩ := ih ho hlog
    exact ⟨hholds.contribute, by rw [Shareholder.contribute_view]; exact ht.counted,
      by rw [Shareholder.contribute_alerts]; exact ht.alerts⟩
  | @read log s out e response h hr ih =>
    obtain ⟨before, last, rfl, rfl, hlast⟩ := List.map_eq_append_iff.1 hlog
    obtain ⟨x, rfl, rfl⟩ := List.map_eq_singleton_iff.1 hlast
    obtain ⟨hholds, ht⟩ := ih ho.of_append rfl
    have hd := hholds.valid.delivered_of_deliver hr
    exact ⟨(hholds.delivered hC hinj hi ho hd).1, hholds.tallies_concat ht hC hinj hi ho hr⟩

/-! ## a latecomer -/

/-- a turn keeps the session running, and posts in the name of the reader -/
theorem Runs.turn {r r' : Reader F G} {m : Move} {payloads : List (Payload F G)} (h : C.Runs posts σ) (hC : C.Staffed)
    (hinj : Set.InjOn (xCoordinate (F := F)) {i : Index | i.toNat < C.params.n})
    (hm : m = .deal (Session.index r) ∨ m = .read (Session.index r)) (hmove : σ.move m = some (σ.next r' payloads))
    (hturn : Session.Turn σ r r' payloads) :
    C.Own m ∧ ∃ new, C.Runs (posts ++ new) (σ.next r' payloads) ∧ ∀ x ∈ new, x.1 = Session.index r := by
  have hi := h.index_lt hturn.mem
  have hown : C.Own m := by rcases hm with rfl | rfl <;> exact hi
  obtain ⟨σ', new, hmove', hruns, hby⟩ := h.move hC hinj hown
  obtain rfl := Option.some.inj (hmove'.symm.trans hmove)
  refine ⟨hown, new, hruns, fun x hx => ?_⟩
  rcases hm with rfl | rfl
  · rcases hby x hx with heq | heq
    · exact (Move.deal.inj heq).symm
    · cases heq
  · rcases hby x hx with heq | heq
    · cases heq
    · exact (Move.read.inj heq).symm

omit [Sampled F] [LawfulWire F] [LawfulWire G] in
/-- before a constant term is proved, nobody posts a bulk proof -/
theorem Runs.no_bulkProof {new : List (Post F G)} (h : C.Runs (posts ++ new) σ) (hr : r ∈ σ.readers)
    (hcursor : r.cursor ≤ posts.length) (hauthor : ∀ x ∈ new, x.1 = Session.index r)
    (hproof : senders .proof posts = []) (hnone : senders .bulkProof posts = []) :
    senders .bulkProof (posts ++ new) = [] := by
  have hnew : senders .bulkProof (posts ++ new) = senders .bulkProof new := by
    rw [senders_append, hnone, List.nil_append]
  rw [List.eq_nil_iff_forall_not_mem]
  intro i hi
  obtain ⟨x, hx, hxi⟩ := List.mem_map.1 (hnew ▸ hi)
  obtain rfl : Session.index r = i := (hauthor x (List.mem_filter.1 hx).1).symm.trans hxi
  have hdue := ((h.follows r hr).posted (h.orderly.honest hi) .bulkProof (by decide)).1 hi
  refine hdue (List.prefix_nil.1 (hproof ▸ senders_mono ?_))
  rw [List.take_append_of_le_length hcursor]
  exact List.take_prefix _ _

omit [Sampled F] [LawfulWire F] [LawfulWire G] in
/-- once enough others have dealt, and everybody has read all there is, everybody has posted a bulk proof -/
theorem Runs.proved_of_others (h : C.Runs posts σ) (hC : C.Ready) (hfew : C.silent.length < C.params.f)
    (hd : σ.Drained) (hdealt : ∀ j ∈ C.honest, j ≠ i → j ∈ senders .contribution posts) :
    senders .proof posts ≠ [] := by
  have hstocked : C.Stocked posts := by
    have hothers : (C.honest.erase i).length ≤ (senders .contribution posts).length :=
      ((hC.toStaffed.nodup_honest.erase i).subperm fun j hj =>
        hdealt j (List.mem_of_mem_erase hj) ((hC.toStaffed.nodup_honest.mem_erase_iff.1 hj).1)).length_le
    have herase : C.honest.length - 1 ≤ (C.honest.erase i).length := List.le_length_erase
    have hsplit := hC.toStaffed.length_honest
    rw [Stocked]
    omega
  exact h.proved hC hd ((h.frozen_iff hC hd hstocked).2 ⟨hC.lt_words, hC.lt_length_honest⟩)

omit [Sampled F] [LawfulWire F] [LawfulWire G] in
/-- a latecomer that has read everything and proved nothing is not the last to move -/
theorem Runs.exists_busy {late : Reader F G} (h : C.Runs posts σ) (hC : C.Ready) (hfew : C.silent.length < C.params.f)
    (hlater : late ∈ σ.readers) (hhonest : Session.index late ∈ C.honest) (hread : posts.length ≤ late.cursor)
    (hproof : senders .proof posts = []) : ∃ r ∈ σ.readers, Session.index r ≠ Session.index late ∧
      ¬ (r.shareholder.contributed = true ∧ r.cursor = σ.board.length) := by
  by_contra hbusy
  push Not at hbusy
  refine absurd hproof (h.proved_of_others hC hfew (i := Session.index late) ?_ ?_)
  · intro r hr
    by_cases hsame : Session.index r = Session.index late
    · obtain rfl := List.inj_on_of_nodup_map (h.indices.symm ▸ hC.indices) hr hlater hsame
      rw [Board.length, h.board, List.length_map]
      exact le_antisymm (h.follows r hr).cursor_le hread
    · exact (hbusy r hr hsame).2
  · intro j hj hne
    obtain ⟨r, hr, -, rfl⟩ := h.exists_reader (lt_of_mem_honest hj)
    exact ((h.follows r hr).dealt hj).2 (hbusy r hr hne).1

/-- **A latecomer may prove first.** As long as one shareholder has not dealt, and is the first to read whatever there is,
the first bulk proof is its own. -/
theorem Runs.exists_early (h : C.Runs posts σ) (hC : C.Ready) (hfew : C.silent.length < C.params.f)
    (hinj : Set.InjOn (xCoordinate (F := F)) {i : Index | i.toNat < C.params.n}) (hi : i ∈ C.honest)
    (hlate : i ∉ senders .contribution posts) (hnone : senders .bulkProof posts = []) :
    ∃ ms σ' posts', (∀ m ∈ ms, C.Own m) ∧ σ.moves ms = some σ' ∧ C.Runs posts' σ' ∧
      i ∉ senders .contribution posts' ∧ senders .bulkProof posts' ≠ [] ∧ ∀ j ∈ senders .bulkProof posts', j = i := by
  obtain ⟨bound, hbound⟩ : ∃ bound, σ.reach ≤ bound := ⟨_, le_rfl⟩
  generalize htotal : (σ.readers.map (Session.toDo bound)).sum = total
  induction total using Nat.strong_induction_on generalizing σ posts with
  | _ total ih =>
    obtain ⟨late, hlater, -, rfl⟩ := h.exists_reader (lt_of_mem_honest hi)
    have hsane := h.sane hC.toStaffed
    have hlength : σ.board.length = posts.length := by rw [Board.length, h.board, List.length_map]
    have hroom : σ.board.length ≤ bound := (Nat.le_add_right _ _).trans hbound
    by_cases hunread : late.cursor < posts.length
    · -- the latecomer reads on
      obtain ⟨late', payloads, hmove, hturn, -, hcontributed⟩ := hsane.move_read hlater (hlength ▸ hunread)
      obtain ⟨hown, new, hruns, hauthor⟩ := h.turn hC.toStaffed hinj (Or.inr rfl) hmove hturn
      have hmem : late' ∈ (σ.next late' payloads).readers := hturn.mem_next
      have hlate' : Session.index late ∉ senders .contribution (posts ++ new) := by
        intro hmem'
        have hdone := ((hruns.follows late' hmem).dealt (hturn.index.symm ▸ hi)).1 (hturn.index.symm ▸ hmem')
        exact hlate (((h.follows late hlater).dealt hi).2 (hcontributed ▸ hdone))
      by_cases hnone' : senders .bulkProof (posts ++ new) = []
      · obtain ⟨ms, σ', posts', hms, hmoves, hrest⟩ := ih _ (htotal ▸ hturn.toDo_lt hsane hroom) hruns hlate' hnone'
          ((hturn.reach_le hsane).trans hbound) rfl
        exact ⟨_, σ', posts', List.forall_mem_cons.2 ⟨hown, hms⟩, Session.moves_cons_of_move hmove hmoves, hrest⟩
      · refine ⟨[.read (Session.index late)], _, posts ++ new, List.forall_mem_singleton.2 hown,
          Session.moves_cons_of_move hmove rfl, hruns, hlate', hnone', fun j hj => ?_⟩
        rw [senders_append, hnone, List.nil_append] at hj
        obtain ⟨x, hx, rfl⟩ := List.mem_map.1 hj
        exact hauthor x (List.mem_filter.1 hx).1
    · have hread : posts.take late.cursor = posts := List.take_of_length_le (not_lt.1 hunread)
      -- it has read everything and proved nothing, so nobody has proved a constant term
      have hproof : senders .proof posts = [] := by
        by_contra hproof
        have hposted := ((h.follows late hlater).posted hi .bulkProof (by decide)).2 (by rwa [Due, hread])
        rw [hnone] at hposted
        cases hposted
      -- and somebody else moves
      obtain ⟨r, hr, hne, hbusy⟩ := h.exists_busy hC hfew hlater hi (not_lt.1 hunread) hproof
      obtain ⟨m, r', payloads, hm, hmove, hturn⟩ := hsane.exists_turn hr hbusy
      obtain ⟨hown, new, hruns, hauthor⟩ := h.turn hC.toStaffed hinj hm hmove hturn
      have hmem : r' ∈ (σ.next r' payloads).readers := hturn.mem_next
      have hauthor' : ∀ x ∈ new, x.1 = Session.index r' := fun x hx => (hauthor x hx).trans hturn.index.symm
      have hlate' : Session.index late ∉ senders .contribution (posts ++ new) := by
        rw [senders_append, List.mem_append, not_or]
        refine ⟨hlate, fun hmem' => ?_⟩
        obtain ⟨x, hx, hxi⟩ := List.mem_map.1 hmem'
        exact hne ((hauthor x (List.mem_filter.1 hx).1).symm.trans hxi)
      have hnone' := hruns.no_bulkProof hmem (hlength ▸ hturn.cursor_le) hauthor' hproof hnone
      obtain ⟨ms, σ', posts', hms, hmoves, hrest⟩ := ih _ (htotal ▸ hturn.toDo_lt hsane hroom) hruns hlate' hnone'
        ((hturn.reach_le hsane).trans hbound) rfl
      exact ⟨_, σ', posts', List.forall_mem_cons.2 ⟨hown, hms⟩, Session.moves_cons_of_move hmove hmoves, hrest⟩

/-- a reader can read on to any place in the log -/
theorem Runs.exists_read (h : C.Runs posts σ) (hC : C.Staffed)
    (hinj : Set.InjOn (xCoordinate (F := F)) {i : Index | i.toNat < C.params.n}) (hr : r ∈ σ.readers) {upto : Nat}
    (hle : r.cursor ≤ upto) (hupto : upto ≤ posts.length) :
    ∃ ms σ' new r', (∀ m ∈ ms, C.Own m) ∧ σ.moves ms = some σ' ∧ C.Runs (posts ++ new) σ' ∧ r' ∈ σ'.readers ∧
      Session.index r' = Session.index r ∧ r'.cursor = upto := by
  induction hgap : upto - r.cursor generalizing σ posts r with
  | zero =>
    exact ⟨[], σ, [], r, fun m hm => absurd hm List.not_mem_nil, rfl, by rwa [List.append_nil], hr, rfl, by omega⟩
  | succ gap ih =>
    have hlength : σ.board.length = posts.length := by rw [Board.length, h.board, List.length_map]
    obtain ⟨r', payloads, hmove, hturn, hcursor, -⟩ := (h.sane hC).move_read hr (by omega)
    obtain ⟨hown, new, hruns, -⟩ := h.turn hC hinj (Or.inr rfl) hmove hturn
    obtain ⟨ms, σ', later, r'', hms, hmoves, hruns', hr'', hindex, hupto⟩ := ih hruns hturn.mem_next (by omega)
      (hupto.trans (List.length_append ▸ Nat.le_add_right _ _)) (by omega)
    exact ⟨_, σ', new ++ later, r'', List.forall_mem_cons.2 ⟨hown, hms⟩, Session.moves_cons_of_move hmove hmoves,
      by rwa [← List.append_assoc], hr'', hindex.trans hturn.index, hupto⟩

/-- each reader has raised the alerts of the tally of what it has read -/
theorem Runs.tallies (h : C.Runs posts σ) (hC : C.Staffed)
    (hinj : Set.InjOn (xCoordinate (F := F)) {i : Index | i.toNat < C.params.n})
    (hfaithful : σ.Faithful (C.params.dealers.map C.start)) (hr : r ∈ σ.readers) :
    C.Tallies (Session.index r) (posts.take r.cursor) r.shareholder := by
  obtain ⟨out, hhistory⟩ := hC.exists_history hfaithful hr
  rw [h.board, ← List.map_take] at hhistory
  have ho := h.orderly.anti (List.take_prefix r.cursor posts)
  exact (ho.tallies hC hinj (h.index_lt hr) hhistory).2

end Cast

variable [Field F] [AddCommGroup G] [Module F G] [Suite F G] [Wire F] [Wire G] [Sampled F] [DecidableEq F]
  [DecidableEq G] [LawfulWire F] [LawfulWire G] {C : Cast F G}

/-- **Alerts are raised about early bulk proofs only.** However the shareholders deal and read, no move fails, and each of
them has raised one alert for each bulk proof that came too early in what it has read, and no other. If everybody deals
before it proves its shares, nobody has raised any. -/
theorem alerts_eq_early (r : Nat) [CharP F r] (hr : C.params.n ≤ r) (hC : C.Staffed) {ms : List Move}
    (hms : ∀ m ∈ ms, C.Own m) :
    ∃ σ, C.session.moves ms = some σ ∧ σ.readers.map Session.index = C.params.dealers ∧ ∀ t ∈ σ.readers,
      t.shareholder.alerts = (Tally.ofLog C.params.k (σ.board.entries.take t.cursor)).early.map
        (fun j => ⟨Session.index t, j, .stateViolation⟩) ∧
      ((∀ before e, before ++ [e] <+: σ.board.entries → e.opcode = Opcode.bulkProof.code →
          ∃ e' ∈ before, e'.opcode = Opcode.contribution.code ∧ e'.sender = e.sender) →
        t.shareholder.alerts = []) := by
  have hinj := injOn_xCoordinate (F := F) r hr
  obtain ⟨σ, posts, hmoves, hruns⟩ := hC.runs_start.moves hC hinj hms
  have hfaithful := hC.faithful hms hmoves
  refine ⟨σ, hmoves, hruns.indices, fun t ht => ?_⟩
  have halerts := (hruns.tallies hC hinj hfaithful ht).alerts
  rw [Cast.tally, List.map_take, ← hruns.board] at halerts
  refine ⟨halerts, fun hdealt => ?_⟩
  have hnone : (Tally.ofLog C.params.k (σ.board.entries.take t.cursor)).early = [] :=
    Tally.early_eq_nil fun before e hprefix => hdealt before e <| hprefix.trans (List.take_prefix _ _)
  rw [halerts, hnone, List.map_nil]

/-- five shareholders, one of them silent, at rest -/
theorem alerts_eq_early_five : ∃ (ms : List Move) (σ : Session (ZMod 11) (ZMod 11)),
    Cast.five.session.moves ms = some σ ∧ σ.Quiescent ∧ σ.readers.length = 5 ∧ ∀ t ∈ σ.readers,
      t.shareholder.alerts = (Tally.ofLog 2 σ.board.entries).early.map
        fun j => ⟨Session.index t, j, .stateViolation⟩ := by
  obtain ⟨ms, σ, hms, hmoves, hq, -⟩ := Cast.ready_five.exists_rest (injOn_xCoordinate 11 Cast.n_five_le)
  obtain ⟨σ', hmoves', hindices, halerts⟩ := alerts_eq_early 11 Cast.n_five_le Cast.ready_five.toStaffed hms
  obtain rfl := Option.some.inj (hmoves'.symm.trans hmoves)
  refine ⟨ms, σ', hmoves, hq, ?_, fun t ht => ?_⟩
  · rw [← List.length_map Session.index, hindices, Params.length_dealers, Cast.params_five]
  · obtain ⟨halerts, -⟩ := halerts t ht
    rw [(hq t ht).2, Board.length, List.take_length, Cast.params_five] at halerts
    exact halerts

/-- four honest shareholders, two shares to reconstruct, one fault tolerated -/
def Cast.fourHonest : Cast (ZMod 11) (ZMod 11) := .uniform (ZMod 11) { n := 4, k := 2, f := 1 } 0

/-- Shareholder 0 of four honest ones deals too late, and raises an alert against itself. -/
theorem latecomer_alerted : ({ n := 4, k := 2, f := 1 } : Config).validate = .ok () ∧ Cast.fourHonest.Ready ∧
    Cast.fourHonest.params = ⟨4, 2, 1⟩ ∧ Cast.fourHonest.honest = [0, 1, 2, 3] ∧
    ∃ (ms : List Move) (σ : Session (ZMod 11) (ZMod 11)), (∀ m ∈ ms, Cast.fourHonest.Own m) ∧
      Cast.fourHonest.session.moves ms = some σ ∧
      ∃ t ∈ σ.readers, ⟨0, 0, .stateViolation⟩ ∈ t.shareholder.alerts := by
  have hC : Cast.fourHonest.Ready :=
    Cast.ready_uniform one_ne_zero (fun _ => ⟨rfl, rfl⟩) rfl (by decide) (by decide) (by decide)
  have hparams : Cast.fourHonest.params = ⟨4, 2, 1⟩ := Cast.params_uniform
  have hhonest : Cast.fourHonest.honest = [0, 1, 2, 3] := by decide
  have hinj := injOn_xCoordinate (F := ZMod 11) 11 (n := Cast.fourHonest.params.n) (by rw [hparams]; decide)
  have hlate : (0 : Index) ∈ Cast.fourHonest.honest := hhonest ▸ List.mem_cons_self
  obtain ⟨ms, σ, posts, hms, hmoves, hruns, hundealt, hne, hall⟩ := hC.runs_start.exists_early hC (by decide) hinj hlate
    List.not_mem_nil rfl
  -- shareholder 0 goes on to its own bulk proof
  obtain ⟨t, ht, -, hindex⟩ := hruns.exists_reader (Cast.lt_of_mem_honest hlate)
  obtain ⟨later, σ', new, t', hlater, hmoves', hruns', ht', hindex', hcursor⟩ := hruns.exists_read hC hinj ht
    (hruns.follows t ht).cursor_le le_rfl
  have hown : ∀ m ∈ ms ++ later, Cast.fourHonest.Own m := fun m hm => (List.mem_append.1 hm).elim (hms m) (hlater m)
  have hrun : Cast.fourHonest.session.moves (ms ++ later) = some σ' := by
    rw [Session.moves_append, hmoves]
    exact hmoves'
  have halerts := (hruns'.tallies hC hinj (hC.toStaffed.faithful hown hrun) ht').alerts
  obtain ⟨-, hearly⟩ := Cast.tally_of_early (by rw [hparams]; decide) hundealt hall
  rw [hcursor, List.take_left, hearly, hindex', hindex] at halerts
  obtain ⟨j, hj⟩ := List.exists_mem_of_ne_nil _ hne
  obtain rfl := hall j hj
  exact ⟨rfl, hC, hparams, hhonest, ms ++ later, σ', hown, hrun, t', ht', halerts ▸ List.mem_map_of_mem hj⟩

end DistributedKey
