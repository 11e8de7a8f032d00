/-
What a move makes of a session, whoever makes it and whatever is on the log.

A reader that deals or reads takes its place again and posts what it answers, which its budget pays for. Anything else on
the log has been posted by somebody. So only a post makes the log reach further.

- `Sane`: the readers are valid, have read a part of the log, and there is one for each index.
- `reach`: how long the log may become if nobody else posts.
- `Turn`: a reader moves on. It has less to do then, and nothing is left out of `reach`.
- `Sane.readNext`: a reader that is not at the end has a turn. `Sane.exists_turn`: so has one that has not dealt.
- `Step`: a move does nothing, is a turn, or is a post. `Sane.step`: no move fails, and each is one of the three.
- `Step.idle_or_lt`: a move that is no post does nothing, or leaves less to do.
- `Sane.moves`: no run fails, and the log reaches no further than by what others post.
- `Quiescent`: everybody has dealt and has read the whole log. `Sane.exists_quiescent`: the readers can always get there.
-/
import DistributedKey.Proofs.Output
import DistributedKey.Proofs.Session

namespace DistributedKey

variable {F G : Type}

namespace Move

def isPost : Move → Bool
  | .post _ => true
  | .deal _ | .read _ => false

/-- a move of one of the shareholders, or a post of anybody -/
def Of (indices : List Index) : Move → Prop
  | .deal i | .read i => i ∈ indices
  | .post _ => True

end Move

namespace Session

variable {σ σ' : Session F G} {r r' : Reader F G} {new : List (Payload F G)} {i : Index} {m : Move} {bound : Nat}

/-- everybody has dealt and has read the whole log -/
def Quiescent (σ : Session F G) : Prop := ∀ r ∈ σ.readers, r.shareholder.contributed = true ∧ r.cursor = σ.board.length

/-- everybody has read the whole log -/
def Drained (σ : Session F G) : Prop := ∀ r ∈ σ.readers, r.cursor = σ.board.length

theorem Quiescent.drained (h : σ.Quiescent) : σ.Drained := fun r hr => (h r hr).2

section

variable [Suite F G] [Zero G] [DecidableEq G]

/-- each reader is valid, has read a part of the log, and there is one for each index -/
structure Sane (σ : Session F G) : Prop where
  valid : ∀ r ∈ σ.readers, r.shareholder.Valid
  cursor_le : ∀ r ∈ σ.readers, r.cursor ≤ σ.board.length
  distinct : (σ.readers.map index).Nodup

/-- there is one reader of an index -/
theorem Sane.eq_of_index (h : σ.Sane) (hr : r ∈ σ.readers) (hr' : r' ∈ σ.readers) (hindex : index r = index r') :
    r = r' := List.inj_on_of_nodup_map h.distinct hr hr' hindex

theorem Sane.exists_reader (h : σ.Sane) (hi : i ∈ σ.readers.map index) :
    ∃ r ∈ σ.readers, index r = i ∧ ∀ r₀ ∈ σ.readers, index r₀ = i → r₀ = r := by
  obtain ⟨r, hr, rfl⟩ := List.mem_map.1 hi
  exact ⟨r, hr, rfl, fun r₀ hr₀ hi₀ => h.eq_of_index hr₀ hr hi₀⟩

theorem Sane.reader?_eq (h : σ.Sane) (hr : r ∈ σ.readers) : σ.reader? (index r) = some r := by
  obtain ⟨r', hr'⟩ := exists_reader? (List.mem_map_of_mem hr)
  obtain ⟨hmem, hindex⟩ := mem_of_reader? hr'
  rwa [h.eq_of_index hmem hr hindex] at hr'

/-- a reader that takes its place again as it was changes nothing -/
theorem Sane.update_self (h : σ.Sane) (hr : r ∈ σ.readers) : σ.update r = σ := by
  have hsame : ∀ r₀ ∈ σ.readers, (if index r₀ = index r then r else r₀) = r₀ := by
    intro r₀ hr₀
    split_ifs with hi
    · exact h.eq_of_index hr hr₀ hi.symm
    · rfl
  have hreaders := List.map_congr_left hsame
  rw [List.map_id'] at hreaders
  rw [update, hreaders]

end

/-! ## turns -/

section

variable [Wire F] [Wire G]

/-- what the readers may still broadcast -/
def budgets (σ : Session F G) : Nat := (σ.readers.map (·.shareholder.budget)).sum

/-- how long the log may become if nobody else posts -/
def reach (σ : Session F G) : Nat := σ.board.length + σ.budgets

/-- the session after a reader has taken its place again and has posted -/
def next (σ : Session F G) (r' : Reader F G) (new : List (Payload F G)) : Session F G :=
  (σ.update r').postAll (new.map (·.toEnvelope (index r')))

theorem length_next : (σ.next r' new).board.length = σ.board.length + new.length := by
  simp [next, Board.length]

theorem readers_next : (σ.next r' new).readers = (σ.update r').readers := readers_postAll

variable [Suite F G] [Zero G] [DecidableEq G]

/-- a reader moves on: it pays for what it posts, and has less to do -/
structure Turn (σ : Session F G) (r r' : Reader F G) (new : List (Payload F G)) : Prop where
  mem : r ∈ σ.readers
  index : Session.index r' = Session.index r
  valid : r'.shareholder.Valid
  cursor_le : r'.cursor ≤ σ.board.length
  spends : new.length + r'.shareholder.budget ≤ r.shareholder.budget
  contributed : r.shareholder.contributed = true → r'.shareholder.contributed = true
  less : ∀ bound, σ.board.length ≤ bound → toDo bound r' < toDo bound r

theorem Turn.next_eq (h : Turn σ r r' new) :
    σ.next r' new = (σ.update r').postAll (new.map (·.toEnvelope (Session.index r))) := by
  rw [next, h.index]

theorem Turn.mem_next (h : Turn σ r r' new) : r' ∈ (σ.next r' new).readers := by
  rw [readers_next]
  exact mem_update_self h.mem h.index

theorem Turn.sane (h : Turn σ r r' new) (hσ : σ.Sane) : (σ.next r' new).Sane := by
  have hlen : (σ.next r' new).board.length = σ.board.length + new.length := length_next
  constructor
  · intro r₀ hr₀
    rw [readers_next] at hr₀
    rcases mem_update hr₀ with rfl | ⟨hr₀, -⟩
    · exact h.valid
    · exact hσ.valid r₀ hr₀
  · intro r₀ hr₀
    rw [readers_next] at hr₀
    rw [hlen]
    rcases mem_update hr₀ with rfl | ⟨hr₀, -⟩
    · exact Nat.le_add_right_of_le h.cursor_le
    · exact Nat.le_add_right_of_le (hσ.cursor_le r₀ hr₀)
  · rw [readers_next, map_index_update]
    exact hσ.distinct

theorem Turn.reach_le (h : Turn σ r r' new) (hσ : σ.Sane) : (σ.next r' new).reach ≤ σ.reach := by
  have hsum := sum_update (fun r => r.shareholder.budget) hσ.distinct h.mem h.index
  have hspends := h.spends
  rw [reach, reach, budgets, budgets, length_next, readers_next]
  omega

theorem Turn.toDo_lt (h : Turn σ r r' new) (hσ : σ.Sane) (hbound : σ.board.length ≤ bound) :
    ((σ.next r' new).readers.map (toDo bound)).sum < (σ.readers.map (toDo bound)).sum := by
  rw [readers_next]
  exact sum_toDo_update_lt hσ.distinct h.mem h.index (h.less bound hbound)

/-! ## what a move keeps -/

/-- the move does nothing -/
def Idle (σ : Session F G) : Move → Prop
  | .deal i => ∀ r ∈ σ.readers, index r = i → r.shareholder.contributed = true
  | .read i => ∀ r ∈ σ.readers, index r = i → r.cursor = σ.board.length
  | .post _ => False

/-- what a move makes of a session -/
inductive Step (σ : Session F G) : Move → Session F G → Prop
  | idle {m : Move} (h : σ.Idle m) : Step σ m σ
  | turn {m : Move} {r r' : Reader F G} {new : List (Payload F G)} (h : Turn σ r r' new)
      (hdeal : ∀ i, m = .deal i → index r = i ∧ r'.shareholder.contributed = true) : Step σ m (σ.next r' new)
  | posted (e : Envelope) : Step σ (.post e) (σ.post e)

theorem Step.sane (h : Step σ m σ') (hσ : σ.Sane) : σ'.Sane := by
  cases h with
  | idle _ => exact hσ
  | turn hturn _ => exact hturn.sane hσ
  | posted e =>
    refine ⟨hσ.valid, fun r hr => ?_, hσ.distinct⟩
    exact (hσ.cursor_le r hr).trans (by simp [post])

theorem Step.indices (h : Step σ m σ') : σ'.readers.map index = σ.readers.map index := by
  cases h with
  | idle _ | posted _ => rfl
  | turn hturn _ => rw [readers_next, map_index_update]

/-- **Only a post makes the log reach further**, by itself. -/
theorem Step.reach_le (h : Step σ m σ') (hσ : σ.Sane) : σ'.reach ≤ σ.reach + if m.isPost then 1 else 0 := by
  cases h with
  | idle _ => exact Nat.le_add_right _ _
  | turn hturn _ => exact (hturn.reach_le hσ).trans (Nat.le_add_right _ _)
  | posted e =>
    have hbudgets : (σ.post e).budgets = σ.budgets := rfl
    have hlength : (σ.post e).board.length = σ.board.length + 1 := by simp [post]
    simp only [reach, hbudgets, hlength, Move.isPost, ↓reduceIte]
    omega

/-- **A move that is no post does nothing, or leaves less to do.** -/
theorem Step.idle_or_lt (h : Step σ m σ') (hσ : σ.Sane) (hm : m.isPost = false) (hbound : σ.reach ≤ bound) :
    σ' = σ ∧ σ.Idle m ∨ (σ'.readers.map (toDo bound)).sum < (σ.readers.map (toDo bound)).sum := by
  cases h with
  | idle hidle => exact Or.inl ⟨rfl, hidle⟩
  | turn hturn _ => exact Or.inr (hturn.toDo_lt hσ ((Nat.le_add_right _ _).trans hbound))
  | posted e => cases hm

/-- the shareholder of an index has dealt -/
def Dealt (σ : Session F G) (i : Index) : Prop := ∀ r ∈ σ.readers, index r = i → r.shareholder.contributed = true

theorem Step.dealt (h : Step σ m σ') (hdealt : σ.Dealt i) : σ'.Dealt i := by
  cases h with
  | idle _ | posted _ => exact hdealt
  | @turn _ r r' new hturn _ =>
    intro r₀ hr₀ hi₀
    rw [readers_next] at hr₀
    rcases mem_update hr₀ with rfl | ⟨hr₀, -⟩
    · exact hturn.contributed (hdealt r hturn.mem (hturn.index.symm.trans hi₀))
    · exact hdealt r₀ hr₀ hi₀

theorem Step.dealt_of_deal (h : Step σ (.deal i) σ') : σ'.Dealt i := by
  cases h with
  | idle hidle => exact hidle
  | @turn _ r r' new hturn hdeal =>
    obtain ⟨rfl, hdone⟩ := hdeal i rfl
    intro r₀ hr₀ hi₀
    rw [readers_next] at hr₀
    rcases mem_update hr₀ with rfl | ⟨-, hne⟩
    · exact hdone
    · exact absurd (hi₀.trans hturn.index.symm) hne

end

/-! ## moves -/

variable [Suite F G] [NatCast F] [Zero F] [One F] [Add F] [Sub F] [Mul F] [Inv F] [SMul F F] [Zero G] [Add G]
  [SMul F G] [Wire F] [Wire G] [Sampled F] [DecidableEq F] [DecidableEq G]

omit [One F] [Sub F] [Mul F] [Inv F] [DecidableEq F] in
theorem Sane.turn_deal (h : σ.Sane) (hr : r ∈ σ.readers) (hnot : ¬ r.shareholder.contributed = true) :
    Turn σ r ⟨r.shareholder.contribute.2, r.cursor⟩ r.shareholder.contribute.1.toList where
  mem := hr
  index := Shareholder.index_eq_of_identity (Shareholder.contribute_identity _)
  valid := (h.valid r hr).contribute
  cursor_le := h.cursor_le r hr
  spends := Shareholder.budget_of_spends (Shareholder.contribute_spends _)
  contributed _ := Shareholder.contributed_contribute _
  less bound _ := by simp [toDo, hnot]

theorem Sane.turn_read (h : σ.Sane) (hr : r ∈ σ.readers) {e : Envelope} {response : Shareholder.Response F G}
    (hd : Shareholder.Delivered r.shareholder e response) (hlt : r.cursor < σ.board.length) :
    Turn σ r ⟨response.shareholder, r.cursor + 1⟩ response.outgoing where
  mem := hr
  index := Shareholder.index_eq_of_identity hd.identity
  valid := hd.valid (h.valid r hr)
  cursor_le := hlt
  spends := Shareholder.budget_of_spends (hd.spends (h.valid r hr))
  contributed hdone := hd.contributed.trans hdone
  less bound hbound := by
    simp only [toDo, hd.contributed]
    omega

/-- **A reader that is not at the end has a turn.** -/
theorem Sane.readNext (h : σ.Sane) (hr : r ∈ σ.readers) :
    r.cursor = σ.board.length ∧ σ.readNext (index r) true = some (none, σ) ∨
      ∃ x r' new, σ.readNext (index r) true = some (some x, σ.next r' new) ∧ Turn σ r r' new ∧
        r'.cursor = r.cursor + 1 ∧ r'.shareholder.contributed = r.shareholder.contributed := by
  have hreader := h.reader?_eq hr
  rcases he : σ.board.get? r.cursor with _ | e
  · exact Or.inl ⟨le_antisymm (h.cursor_le r hr) (List.getElem?_eq_none_iff.1 he), readNext_none hreader he⟩
  · obtain ⟨response, hresponse, hd⟩ := (h.valid r hr).delivered e
    have hturn := h.turn_read hr hd (List.getElem?_eq_some_iff.1 he).1
    have hnext := readNext_some hreader he hresponse
    rw [← hturn.next_eq] at hnext
    exact Or.inr ⟨_, _, _, hnext, hturn, rfl, hd.contributed⟩

theorem Sane.move_read (h : σ.Sane) (hr : r ∈ σ.readers) (hlt : r.cursor < σ.board.length) :
    ∃ r' new, σ.move (.read (index r)) = some (σ.next r' new) ∧ Turn σ r r' new ∧ r'.cursor = r.cursor + 1 ∧
      r'.shareholder.contributed = r.shareholder.contributed := by
  rcases h.readNext hr with ⟨hend, -⟩ | ⟨x, r', new, hnext, hturn⟩
  · exact absurd hend hlt.ne
  · exact ⟨r', new, by rw [move, hnext]; rfl, hturn⟩

theorem Sane.move_deal (h : σ.Sane) (hr : r ∈ σ.readers) (hnot : ¬ r.shareholder.contributed = true) :
    ∃ r' new, σ.move (.deal (index r)) = some (σ.next r' new) ∧ Turn σ r r' new ∧ r'.cursor = r.cursor ∧
      r'.shareholder.contributed = true := by
  have hturn := h.turn_deal hr hnot
  have hmove := Session.move_deal (h.reader?_eq hr)
  rw [← hturn.next_eq] at hmove
  exact ⟨_, _, hmove, hturn, rfl, Shareholder.contributed_contribute _⟩

/-- dealing once more does nothing -/
theorem Sane.move_deal_done (h : σ.Sane) (hr : r ∈ σ.readers) (hdone : r.shareholder.contributed = true) :
    σ.move (.deal (index r)) = some σ := by
  have hsame : r.shareholder.contribute = (none, r.shareholder) := by simp [Shareholder.contribute, hdone]
  rw [Session.move_deal (h.reader?_eq hr), hsame]
  exact congrArg some (h.update_self hr)

/-- who has not dealt, or not read the whole log, can move -/
theorem Sane.exists_turn (h : σ.Sane) (hr : r ∈ σ.readers)
    (hbusy : ¬ (r.shareholder.contributed = true ∧ r.cursor = σ.board.length)) :
    ∃ m r' new, (m = .deal (index r) ∨ m = .read (index r)) ∧ σ.move m = some (σ.next r' new) ∧ Turn σ r r' new := by
  by_cases hdone : r.shareholder.contributed = true
  · have hlt : r.cursor < σ.board.length := lt_of_le_of_ne (h.cursor_le r hr) fun hend => hbusy ⟨hdone, hend⟩
    obtain ⟨r', new, hmove, hturn, -⟩ := h.move_read hr hlt
    exact ⟨_, r', new, Or.inr rfl, hmove, hturn⟩
  · obtain ⟨r', new, hmove, hturn, -⟩ := h.move_deal hr hdone
    exact ⟨_, r', new, Or.inl rfl, hmove, hturn⟩

/-- **No move fails**, and each does nothing, is a turn, or is a post. -/
theorem Sane.step (h : σ.Sane) (hm : m.Of (σ.readers.map index)) : ∃ σ', σ.move m = some σ' ∧ Step σ m σ' := by
  cases m with
  | post e => exact ⟨_, rfl, .posted e⟩
  | deal i =>
    obtain ⟨r, hr, rfl, honly⟩ := h.exists_reader hm
    by_cases hdone : r.shareholder.contributed = true
    · exact ⟨σ, h.move_deal_done hr hdone, .idle fun r₀ hr₀ hi₀ => honly r₀ hr₀ hi₀ ▸ hdone⟩
    · obtain ⟨r', new, hmove, hturn, -, hdealt⟩ := h.move_deal hr hdone
      exact ⟨_, hmove, .turn hturn fun i hi => ⟨Move.deal.inj hi, hdealt⟩⟩
  | read i =>
    obtain ⟨r, hr, rfl, honly⟩ := h.exists_reader hm
    rcases (h.cursor_le r hr).lt_or_eq with hlt | hend
    · obtain ⟨r', new, hmove, hturn, -⟩ := h.move_read hr hlt
      refine ⟨_, hmove, .turn hturn ?_⟩
      intro i hi
      cases hi
    · refine ⟨σ, move_read_none (h.reader?_eq hr) ?_, .idle fun r₀ hr₀ hi₀ => honly r₀ hr₀ hi₀ ▸ hend⟩
      exact List.getElem?_eq_none_iff.2 hend.ge

/-- **No run fails**, and the log reaches no further than by what others post. -/
theorem Sane.moves {ms : List Move} (h : σ.Sane) (hms : ∀ m ∈ ms, m.Of (σ.readers.map index)) :
    ∃ σ', σ.moves ms = some σ' ∧ σ'.Sane ∧ σ'.readers.map index = σ.readers.map index ∧
      σ'.reach ≤ σ.reach + ms.countP Move.isPost := by
  induction ms generalizing σ with
  | nil => exact ⟨σ, rfl, h, rfl, le_rfl⟩
  | cons m ms ih =>
    obtain ⟨mid, hmid, hstep⟩ := h.step (hms m List.mem_cons_self)
    have hreach := hstep.reach_le h
    obtain ⟨σ', hmoves, hsane, hindices, hle⟩ := ih (hstep.sane h) fun m' hm' =>
      hstep.indices ▸ hms m' (List.mem_cons_of_mem _ hm')
    refine ⟨σ', moves_cons_of_move hmid hmoves, hsane, hindices.trans hstep.indices, ?_⟩
    rw [List.countP_cons]
    omega

/-- **The readers can always come to rest** by themselves. -/
theorem Sane.exists_quiescent (h : σ.Sane) :
    ∃ ms σ', (∀ m ∈ ms, m.Of (σ.readers.map index) ∧ m.isPost = false) ∧ σ.moves ms = some σ' ∧ σ'.Quiescent := by
  obtain ⟨bound, hbound⟩ : ∃ bound, σ.reach ≤ bound := ⟨_, le_rfl⟩
  generalize htotal : (σ.readers.map (toDo bound)).sum = total
  induction total using Nat.strong_induction_on generalizing σ with
  | _ total ih =>
    by_cases hquiescent : σ.Quiescent
    · exact ⟨[], σ, fun m hm => absurd hm List.not_mem_nil, rfl, hquiescent⟩
    · simp only [Quiescent, not_forall] at hquiescent
      obtain ⟨r, hr, hbusy⟩ := hquiescent
      obtain ⟨m, r', new, hm, hmove, hturn⟩ := h.exists_turn hr hbusy
      have hless := hturn.toDo_lt h ((Nat.le_add_right _ _).trans hbound)
      obtain ⟨ms, σ', hms, hmoves, hrest⟩ :=
        ih _ (htotal ▸ hless) (hturn.sane h) ((hturn.reach_le h).trans hbound) rfl
      rw [readers_next, map_index_update] at hms
      refine ⟨m :: ms, σ', List.forall_mem_cons.2 ⟨?_, hms⟩, moves_cons_of_move hmove hmoves, hrest⟩
      rcases hm with rfl | rfl
      · exact ⟨List.mem_map_of_mem hr, rfl⟩
      · exact ⟨List.mem_map_of_mem hr, rfl⟩

end Session

end DistributedKey
