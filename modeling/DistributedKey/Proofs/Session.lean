/-
Sessions move by move, and that they keep their log authentic.

- `readNext_some`: reading puts one reader in its place and broadcasts what it answers. `move_deal`, `move_read`: so does a
  move.
- `Authentic members log`: each member posts only what it returned, having read some of what stands before.
- `Faithful members s`: each reader is one of the members after it has read what it has read, and the log is authentic.
- `Faithful.moves`: however the members' moves interleave with posts of others, the session stays faithful.
-/
import DistributedKey.Proofs.History
import DistributedKey.Session

namespace DistributedKey

variable {F G : Type}

namespace Session

section

variable {σ : Session F G} {r r' : Reader F G} {i : Index} {es : List Envelope}

theorem mem_of_reader? (h : σ.reader? i = some r) : r ∈ σ.readers ∧ index r = i :=
  ⟨List.mem_of_find?_eq_some h, by simpa using List.find?_some h⟩

theorem exists_reader? (h : i ∈ σ.readers.map index) : ∃ r, σ.reader? i = some r := by
  obtain ⟨r, hr, hi⟩ := List.mem_map.1 h
  exact Option.isSome_iff_exists.1 (List.find?_isSome.2 ⟨r, hr, by simpa using hi⟩)

theorem mem_update (h : r' ∈ (σ.update r).readers) : r' = r ∨ r' ∈ σ.readers ∧ index r' ≠ index r := by
  obtain ⟨r₀, hr₀, hr'⟩ := List.mem_map.1 h
  split_ifs at hr' with hindex
  · exact Or.inl hr'.symm
  · subst hr'
    exact Or.inr ⟨hr₀, hindex⟩

theorem mem_update_self (h : r ∈ σ.readers) (hindex : index r' = index r) : r' ∈ (σ.update r').readers :=
  List.mem_map.2 ⟨r, h, if_pos hindex.symm⟩

theorem map_index_update : (σ.update r).readers.map index = σ.readers.map index := by
  rw [update, List.map_map]
  refine List.map_congr_left fun r' _ => ?_
  change index (if index r' = index r then r else r') = index r'
  split_ifs with hindex
  · exact hindex.symm
  · rfl

/-- a sum over the readers changes by the one that is put in its place -/
theorem sum_update (f : Reader F G → Nat) (hnodup : (σ.readers.map index).Nodup) (hr : r ∈ σ.readers)
    (hindex : index r' = index r) :
    ((σ.update r').readers.map f).sum + f r = (σ.readers.map f).sum + f r' := by
  obtain ⟨before, behind, hsplit⟩ := List.append_of_mem hr
  have hother : ∀ r₀ ∈ before ++ behind, (if index r₀ = index r' then r' else r₀) = r₀ := by
    intro r₀ hr₀
    rw [hsplit, List.map_append, List.map_cons, List.nodup_middle, List.nodup_cons, ← List.map_append] at hnodup
    refine if_neg fun hsame => hnodup.1 ?_
    rw [← hindex, ← hsame]
    exact List.mem_map_of_mem hr₀
  have hbefore := List.map_congr_left fun r₀ hr₀ => hother r₀ (List.mem_append_left _ hr₀)
  have hbehind := List.map_congr_left fun r₀ hr₀ => hother r₀ (List.mem_append_right _ hr₀)
  rw [List.map_id'] at hbefore hbehind
  simp only [update, hsplit, List.map_append, List.map_cons, if_pos hindex.symm, hbefore, hbehind, List.sum_append,
    List.sum_cons]
  omega

/-- what a reader has still to do, if the log grows to `bound` entries -/
def toDo (bound : Nat) (r : Reader F G) : Nat := bound - r.cursor + if r.shareholder.contributed then 0 else 1

theorem sum_toDo_update_lt {bound : Nat} (hnodup : (σ.readers.map index).Nodup) (hr : r ∈ σ.readers)
    (hindex : index r' = index r) (hlt : toDo bound r' < toDo bound r) :
    ((σ.update r').readers.map (toDo bound)).sum < (σ.readers.map (toDo bound)).sum := by
  have hsum := sum_update (toDo bound) hnodup hr hindex
  omega

theorem postAll_cons (e : Envelope) (es : List Envelope) : σ.postAll (e :: es) = (σ.post e).postAll es := rfl

@[simp] theorem entries_postAll : (σ.postAll es).board.entries = σ.board.entries ++ es := by
  induction es generalizing σ with
  | nil => exact (List.append_nil _).symm
  | cons e es ih => rw [postAll_cons, ih, post, Board.broadcast, List.append_assoc, List.singleton_append]

@[simp] theorem readers_postAll : (σ.postAll es).readers = σ.readers := by
  induction es generalizing σ with
  | nil => rfl
  | cons e es ih => rw [postAll_cons, ih, post]

@[simp] theorem board_update : (σ.update r).board = σ.board := rfl

end

variable [Suite F G] [NatCast F] [Zero F] [One F] [Add F] [Sub F] [Mul F] [Inv F] [SMul F F] [Zero G] [Add G]
  [SMul F G] [Wire F] [Wire G] [Sampled F] [DecidableEq F] [DecidableEq G] {σ σ' : Session F G} {r : Reader F G}
  {i : Index}

/-! ## moves -/

theorem move_deal (h : σ.reader? i = some r) : σ.move (.deal i) =
    some ((σ.update ⟨r.shareholder.contribute.2, r.cursor⟩).postAll
      (r.shareholder.contribute.1.toList.map (·.toEnvelope i))) := by
  simp only [move, deal, h, Option.bind_eq_bind, Option.bind_some, Option.map_some, ↓reduceIte, Option.pure_def]
  cases r.shareholder.contribute.1 <;> rfl

theorem readNext_none {broadcast : Bool} (h : σ.reader? i = some r) (hnone : σ.board.get? r.cursor = none) :
    σ.readNext i broadcast = some (none, σ) := by
  simp [readNext, h, hnone]

theorem readNext_some (h : σ.reader? i = some r) {e : Envelope} (he : σ.board.get? r.cursor = some e)
    {response : Shareholder.Response F G} (hr : r.shareholder.deliver e = some response) : σ.readNext i true =
      some (some (e, ⟨response.outgoing.map (·.toEnvelope i),
          response.shareholder.alerts.drop r.shareholder.alerts.length, response.notices⟩),
        (σ.update ⟨response.shareholder, r.cursor + 1⟩).postAll (response.outgoing.map (·.toEnvelope i))) := by
  have hindex : index ⟨r.shareholder, r.cursor + 1⟩ = i := (mem_of_reader? h).2
  simp [readNext, h, he, deliver, hr, hindex]

theorem move_read_none (h : σ.reader? i = some r) (hnone : σ.board.get? r.cursor = none) :
    σ.move (.read i) = some σ := by
  rw [move, readNext_none h hnone]
  rfl

theorem move_read (h : σ.reader? i = some r) {e : Envelope} (he : σ.board.get? r.cursor = some e)
    {response : Shareholder.Response F G} (hr : r.shareholder.deliver e = some response) : σ.move (.read i) =
      some ((σ.update ⟨response.shareholder, r.cursor + 1⟩).postAll (response.outgoing.map (·.toEnvelope i))) := by
  rw [move, readNext_some h he hr]
  rfl

theorem moves_cons (m : Move) (ms : List Move) : σ.moves (m :: ms) = (σ.move m).bind fun σ' => σ'.moves ms := rfl

theorem moves_cons_of_move {m : Move} {ms : List Move} {mid : Session F G} (hmove : σ.move m = some mid)
    (hmoves : mid.moves ms = some σ') : σ.moves (m :: ms) = some σ' := by
  rw [moves_cons, hmove]
  exact hmoves

theorem moves_append (ms later : List Move) : σ.moves (ms ++ later) = (σ.moves ms).bind fun σ' => σ'.moves later :=
  List.foldlM_append

end Session

/-! ## the log -/

variable [Suite F G] [NatCast F] [Zero F] [One F] [Add F] [Sub F] [Mul F] [Inv F] [SMul F F] [Zero G] [Add G]
  [SMul F G] [Wire F] [Wire G] [Sampled F] [DecidableEq F] [DecidableEq G] {σ σ' : Session F G}
  {members : List (Shareholder F G)}

/-- each of the members posts only what it returned, having read some of what stands before -/
def Authentic (members : List (Shareholder F G)) (log : List Envelope) : Prop :=
  ∀ (before : List Envelope) (e : Envelope), before ++ [e] <+: log → ∀ s₀ ∈ members, e.sender = s₀.index →
    ∃ (read : List Envelope) (s : Shareholder F G) (out : List (Payload F G)),
      read <+: before ∧ History s₀ read s out ∧ ∃ payload ∈ out, e = payload.toEnvelope s₀.index

theorem Authentic.concat {log : List Envelope} {e : Envelope} (h : Authentic members log)
    (he : ∀ s₀ ∈ members, e.sender = s₀.index → ∃ (read : List Envelope) (s : Shareholder F G) (out : List (Payload F G)),
      read <+: log ∧ History s₀ read s out ∧ ∃ payload ∈ out, e = payload.toEnvelope s₀.index) :
    Authentic members (log ++ [e]) := by
  intro before e' hprefix s₀ hs₀ hsender
  rcases concat_prefix_concat.1 hprefix with ⟨rfl, rfl⟩ | hprefix
  · exact he s₀ hs₀ hsender
  · exact h before e' hprefix s₀ hs₀ hsender

/-- a member broadcasts what it has returned -/
theorem Authentic.append {log read : List Envelope} {s₀ s : Shareholder F G} {out new : List (Payload F G)}
    (h : Authentic members log) (hdistinct : (members.map (·.index)).Nodup) (hs₀ : s₀ ∈ members) (hread : read <+: log)
    (hs : History s₀ read s out) (hnew : ∀ y ∈ new, y ∈ out) :
    Authentic members (log ++ new.map (·.toEnvelope s₀.index)) := by
  induction new generalizing log with
  | nil => rwa [List.map_nil, List.append_nil]
  | cons y new ih =>
    have hconcat : Authentic members (log ++ [y.toEnvelope s₀.index]) := h.concat fun s₁ hs₁ hsender => by
      obtain rfl : s₁ = s₀ := List.inj_on_of_nodup_map hdistinct hs₁ hs₀ hsender.symm
      exact ⟨read, s, out, hread, hs, y, hnew y List.mem_cons_self, rfl⟩
    have hrest := ih hconcat (hread.trans (List.prefix_append _ _)) fun z hz => hnew z (List.mem_cons_of_mem _ hz)
    rwa [List.append_assoc] at hrest

namespace Session

/-- each reader is a member that has read what it has read, and members post only what they returned -/
structure Faithful (members : List (Shareholder F G)) (σ : Session F G) : Prop where
  history : ∀ r ∈ σ.readers, r.cursor ≤ σ.board.length ∧ ∃ s₀ ∈ members, ∃ out, index r = s₀.index ∧
    History s₀ (σ.board.entries.take r.cursor) r.shareholder out
  authentic : Authentic members σ.board.entries

theorem faithful_start (members : List (Shareholder F G)) :
    Faithful members { readers := members.map fun s₀ => ⟨s₀, 0⟩ } := by
  refine ⟨fun r hr => ?_, fun before e hprefix => ?_⟩
  · obtain ⟨s₀, hs₀, rfl⟩ := List.mem_map.1 hr
    exact ⟨Nat.zero_le _, s₀, hs₀, [], rfl, .start⟩
  · exact absurd (List.prefix_nil.1 hprefix) (List.concat_ne_nil _ _)

/-- a move of a member, or a post in the name of somebody else -/
def Allowed (members : List (Shareholder F G)) : Move → Prop
  | .deal i => i ∈ members.map (·.index)
  | .read i => i ∈ members.map (·.index)
  | .post e => e.sender ∉ members.map (·.index)

theorem Faithful.post {e : Envelope} (h : σ.Faithful members) (he : e.sender ∉ members.map (·.index)) :
    (σ.post e).Faithful members := by
  refine ⟨fun r hr => ?_, h.authentic.concat fun s₀ hs₀ hsender => absurd (List.mem_map_of_mem hs₀) (hsender ▸ he)⟩
  obtain ⟨hle, s₀, hs₀, out, hindex, hs⟩ := h.history r hr
  refine ⟨hle.trans (by simp [Session.post]), s₀, hs₀, out, hindex, ?_⟩
  change History s₀ ((σ.board.entries ++ [e]).take r.cursor) r.shareholder out
  rwa [List.take_append_of_le_length hle]

/-- a reader takes its place again and broadcasts what it answers -/
theorem Faithful.next {r : Reader F G} (h : σ.Faithful members) (hdistinct : (members.map (·.index)).Nodup)
    {s₀ : Shareholder F G} (hs₀ : s₀ ∈ members) (hindex : index r = s₀.index) (hle : r.cursor ≤ σ.board.length)
    {out new : List (Payload F G)} (hs : History s₀ (σ.board.entries.take r.cursor) r.shareholder out)
    (hnew : ∀ y ∈ new, y ∈ out) :
    ((σ.update r).postAll (new.map (·.toEnvelope s₀.index))).Faithful members := by
  refine ⟨fun r' hr' => ?_, ?_⟩
  · rw [readers_postAll] at hr'
    have hreader : r'.cursor ≤ σ.board.length ∧ ∃ s₀ ∈ members, ∃ out, index r' = s₀.index ∧
        History s₀ (σ.board.entries.take r'.cursor) r'.shareholder out := by
      rcases mem_update hr' with rfl | ⟨hr', -⟩
      · exact ⟨hle, s₀, hs₀, out, hindex, hs⟩
      · exact h.history r' hr'
    obtain ⟨hle', s₁, hs₁, out', hindex', hs'⟩ := hreader
    refine ⟨?_, s₁, hs₁, out', hindex', ?_⟩
    · rw [Board.length, entries_postAll, board_update, List.length_append]
      exact Nat.le_add_right_of_le hle'
    · rwa [entries_postAll, board_update, List.take_append_of_le_length hle']
  · rw [entries_postAll, board_update]
    exact h.authentic.append hdistinct hs₀ (List.take_prefix _ _) hs hnew

theorem Faithful.move (hmembers : ∀ s₀ ∈ members, s₀.Fresh) (hdistinct : (members.map (·.index)).Nodup)
    (h : σ.Faithful members) {m : Move} (hm : Allowed members m) (hmove : σ.move m = some σ') :
    σ'.Faithful members := by
  cases m with
  | post e =>
    obtain rfl := Option.some.inj hmove
    exact h.post hm
  | deal i =>
    rcases hreader : σ.reader? i with _ | r
    · simp [Session.move, deal, hreader] at hmove
    · obtain ⟨hr, rfl⟩ := mem_of_reader? hreader
      obtain ⟨hle, s₀, hs₀, out, hindex, hs⟩ := h.history r hr
      rw [move_deal hreader, hindex] at hmove
      obtain rfl := Option.some.inj hmove
      have hindex' : index (⟨r.shareholder.contribute.2, r.cursor⟩ : Reader F G) = s₀.index :=
        (Shareholder.index_eq_of_identity (Shareholder.contribute_identity _)).trans hindex
      exact h.next hdistinct hs₀ hindex' hle hs.deal fun y hy => List.mem_append_right _ hy
  | read i =>
    rcases hreader : σ.reader? i with _ | r
    · simp [Session.move, readNext, hreader] at hmove
    · obtain ⟨hr, rfl⟩ := mem_of_reader? hreader
      obtain ⟨hle, s₀, hs₀, out, hindex, hs⟩ := h.history r hr
      have hvalid := hs.valid (hmembers s₀ hs₀).valid
      rcases he : σ.board.get? r.cursor with _ | e
      · rw [move_read_none hreader he] at hmove
        obtain rfl := Option.some.inj hmove
        exact h
      · obtain ⟨response, hresponse, hd⟩ := hvalid.delivered e
        rw [move_read hreader he hresponse, hindex] at hmove
        obtain rfl := Option.some.inj hmove
        have hget : σ.board.entries[r.cursor]? = some e := he
        have hlt : r.cursor < σ.board.length := (List.getElem?_eq_some_iff.1 hget).1
        have hindex' : index (⟨response.shareholder, r.cursor + 1⟩ : Reader F G) = s₀.index :=
          (Shareholder.index_eq_of_identity hd.identity).trans hindex
        have hs' : History s₀ (σ.board.entries.take (r.cursor + 1)) response.shareholder (out ++ response.outgoing) := by
          rw [List.take_add_one, hget]
          exact hs.read hresponse
        exact h.next hdistinct hs₀ hindex' hlt hs' fun y hy => List.mem_append_right _ hy

/-- **The log stays authentic**, however moves interleave. -/
theorem Faithful.moves (hmembers : ∀ s₀ ∈ members, s₀.Fresh) (hdistinct : (members.map (·.index)).Nodup)
    (h : σ.Faithful members) {ms : List Move} (hms : ∀ m ∈ ms, Allowed members m) (hmoves : σ.moves ms = some σ') :
    σ'.Faithful members := by
  induction ms generalizing σ with
  | nil =>
    obtain rfl := Option.some.inj hmoves
    exact h
  | cons m ms ih =>
    rw [moves_cons] at hmoves
    obtain ⟨mid, hmid, hmoves⟩ := Option.bind_eq_some_iff.1 hmoves
    exact ih (h.move hmembers hdistinct (hms m List.mem_cons_self) hmid)
      (fun m' hm' => hms m' (List.mem_cons_of_mem _ hm')) hmoves

end Session

end DistributedKey
