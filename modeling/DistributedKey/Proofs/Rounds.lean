/-
Reading round by round ends, because everybody has read the whole log, and not because the rounds have run out.

A round that posts nothing is followed by one that reads nothing, and what is posted is paid for by the budgets. So there
are at most two rounds more than messages that may still come, which is within the limit.

- `Reads`: a session has gone on by reading only. A cursor has moved, or nothing has changed.
- `limit_eq`, `Sane.reach_lt_limit`: the limit is more than a reader may ever have to read.
- `Sane.readAll`: a reader reads to the end. `Sane.round`: in a round each of the readers reads all that was there.
- `Sane.rounds`, `Sane.run`: in the end all who read have read everything.
-/
import DistributedKey.Proofs.Turn

namespace DistributedKey

variable {F G : Type}

namespace Session

variable {σ σ' σ'' : Session F G} {r r' : Reader F G} {new : List (Payload F G)} {is : List Index} {fuel : Nat}

/-! ## going on by reading -/

section

variable [Suite F G] [Zero G] [DecidableEq G]

/-- a session that has gone on by reading only -/
structure Reads (σ σ' : Session F G) : Prop where
  sane : σ'.Sane
  indices : σ'.readers.map index = σ.readers.map index
  reach_le : σ'.reach ≤ σ.reach
  length_le : σ.board.length ≤ σ'.board.length
  cursor_le : ∀ r ∈ σ.readers, ∃ r' ∈ σ'.readers, index r' = index r ∧ r.cursor ≤ r'.cursor
  same_or_lt : σ' = σ ∨ σ.cursors.sum < σ'.cursors.sum

theorem Reads.refl (h : σ.Sane) : Reads σ σ :=
  ⟨h, rfl, le_rfl, le_rfl, fun r hr => ⟨r, hr, rfl, le_rfl⟩, Or.inl rfl⟩

theorem Reads.trans (h : Reads σ σ') (h' : Reads σ' σ'') : Reads σ σ'' where
  sane := h'.sane
  indices := h'.indices.trans h.indices
  reach_le := h'.reach_le.trans h.reach_le
  length_le := h.length_le.trans h'.length_le
  cursor_le r hr := by
    obtain ⟨r₁, hr₁, hindex₁, hle₁⟩ := h.cursor_le r hr
    obtain ⟨r₂, hr₂, hindex₂, hle₂⟩ := h'.cursor_le r₁ hr₁
    exact ⟨r₂, hr₂, hindex₂.trans hindex₁, hle₁.trans hle₂⟩
  same_or_lt := by
    rcases h'.same_or_lt with rfl | hlt'
    · exact h.same_or_lt
    · rcases h.same_or_lt with rfl | hlt
      · exact Or.inr hlt'
      · exact Or.inr (hlt.trans hlt')

variable [Wire F] [Wire G]

theorem Turn.reads (h : Turn σ r r' new) (hσ : σ.Sane) (hcursor : r'.cursor = r.cursor + 1) :
    Reads σ (σ.next r' new) where
  sane := h.sane hσ
  indices := by rw [readers_next, map_index_update]
  reach_le := h.reach_le hσ
  length_le := by rw [length_next]; exact Nat.le_add_right _ _
  cursor_le r₀ hr₀ := by
    rw [readers_next]
    by_cases hindex : Session.index r₀ = Session.index r'
    · obtain rfl := hσ.eq_of_index hr₀ h.mem (hindex.trans h.index)
      exact ⟨r', mem_update_self h.mem h.index, h.index, by omega⟩
    · exact ⟨r₀, List.mem_map.2 ⟨r₀, hr₀, if_neg hindex⟩, rfl, le_rfl⟩
  same_or_lt := by
    have hsum := sum_update (·.cursor) hσ.distinct h.mem h.index
    rw [cursors, cursors, readers_next]
    omega

end

/-! ## the limit -/

theorem limit_eq : σ.limit = σ.board.length + 1 + (σ.readers.map (·.shareholder.group.size + 4)).sum := by
  unfold limit
  generalize σ.board.length + 1 = start
  induction σ.readers generalizing start with
  | nil => rfl
  | cons r readers ih =>
    rw [List.foldl_cons, ih, List.map_cons, List.sum_cons]
    omega

section

variable [Suite F G] [Zero G] [DecidableEq G]

theorem Sane.budgets_le (h : σ.Sane) : σ.budgets ≤ (σ.readers.map (·.shareholder.group.size + 4)).sum :=
  List.sum_le_sum fun r hr => (h.valid r hr).budget_le

/-- one reader has fuel for all that there may ever be to read -/
theorem Sane.reach_lt_limit (h : σ.Sane) : σ.reach < σ.limit := by
  have hbudgets := h.budgets_le
  rw [limit_eq, reach]
  omega

/-! ## rounds -/

/-- the readers of these indices have read everything -/
def DrainedAt (σ : Session F G) (is : List Index) : Prop := ∀ r ∈ σ.readers, index r ∈ is → r.cursor = σ.board.length

/-- a round posts something, or all who read have read everything after it -/
theorem Sane.drainedAt_of_round (h : σ'.Sane) (hlength : σ'.board.length ≤ σ.board.length)
    (hread : ∀ i ∈ is, ∃ r ∈ σ'.readers, index r = i ∧ σ.board.length ≤ r.cursor) : σ'.DrainedAt is := by
  intro r hr hi
  obtain ⟨r', hr', hindex, hle⟩ := hread _ hi
  rw [h.eq_of_index hr' hr hindex] at hle
  exact le_antisymm (h.cursor_le r hr) (hlength.trans hle)

end

variable [Suite F G] [NatCast F] [Zero F] [One F] [Add F] [Sub F] [Mul F] [Inv F] [SMul F F] [Zero G] [Add G]
  [SMul F G] [Wire F] [Wire G] [Sampled F] [DecidableEq F] [DecidableEq G]

/-! ## one reader -/

theorem Sane.readAll (h : σ.Sane) (hr : r ∈ σ.readers) (hfuel : σ.reach < r.cursor + fuel) :
    ∃ log σ', Session.readAll (index r) fuel σ = some (log, σ') ∧ Reads σ σ' ∧
      ∃ r' ∈ σ'.readers, index r' = index r ∧ r'.cursor = σ'.board.length := by
  induction fuel generalizing σ r with
  | zero =>
    have hle := h.cursor_le r hr
    rw [reach] at hfuel
    omega
  | succ fuel ih =>
    rcases h.readNext hr with ⟨hend, hnext⟩ | ⟨x, r', new, hnext, hturn, hcursor, -⟩
    · exact ⟨[], σ, by simp [Session.readAll, hnext], .refl h, r, hr, rfl, hend⟩
    · have hreads := hturn.reads h hcursor
      have hreach := hreads.reach_le
      obtain ⟨log, σ', hlog, hreads', r'', hr'', hindex, hend⟩ := ih hreads.sane hturn.mem_next (by omega)
      rw [hturn.index] at hlog hindex
      refine ⟨x.2.notices.map (index r, x.1.sender, ·) ++ log, σ', ?_, hreads.trans hreads', r'', hr'', hindex, hend⟩
      simp [Session.readAll, hnext, hlog]

/-- who has read everything does nothing -/
theorem Sane.readAll_end (h : σ.Sane) (hr : r ∈ σ.readers) (hend : r.cursor = σ.board.length) :
    Session.readAll (index r) (fuel + 1) σ = some ([], σ) := by
  rcases h.readNext hr with ⟨-, hnext⟩ | ⟨x, r', new, -, hturn, hcursor, -⟩
  · simp [Session.readAll, hnext]
  · have hle := hturn.cursor_le
    omega

/-! ## round by round -/

theorem Sane.round (h : σ.Sane) (his : ∀ i ∈ is, i ∈ σ.readers.map index) :
    ∃ log σ', Session.round is σ = some (log, σ') ∧ Reads σ σ' ∧
      ∀ i ∈ is, ∃ r ∈ σ'.readers, index r = i ∧ σ.board.length ≤ r.cursor := by
  induction is generalizing σ with
  | nil => exact ⟨[], σ, rfl, .refl h, fun i hi => absurd hi List.not_mem_nil⟩
  | cons i is ih =>
    obtain ⟨r, hr, rfl⟩ := List.mem_map.1 (his i List.mem_cons_self)
    obtain ⟨log, σ₁, hlog, hreads, r₁, hr₁, hindex₁, hend₁⟩ :=
      h.readAll hr (lt_of_lt_of_le h.reach_lt_limit (Nat.le_add_left _ r.cursor))
    obtain ⟨others, σ₂, hothers, hreads', hrest⟩ := ih hreads.sane fun j hj =>
      hreads.indices ▸ his j (List.mem_cons_of_mem _ hj)
    refine ⟨log ++ others, σ₂, by simp [Session.round, hlog, hothers], hreads.trans hreads', fun j hj => ?_⟩
    rcases List.mem_cons.1 hj with rfl | hj
    · obtain ⟨r₂, hr₂, hindex₂, hle⟩ := hreads'.cursor_le r₁ hr₁
      exact ⟨r₂, hr₂, hindex₂.trans hindex₁, hreads.length_le.trans (hend₁ ▸ hle)⟩
    · obtain ⟨r₂, hr₂, hindex₂, hle⟩ := hrest j hj
      exact ⟨r₂, hr₂, hindex₂, hreads.length_le.trans hle⟩

theorem Sane.round_drained (h : σ.Sane) (his : ∀ i ∈ is, i ∈ σ.readers.map index) (hd : σ.DrainedAt is) :
    Session.round is σ = some ([], σ) := by
  induction is with
  | nil => rfl
  | cons i is ih =>
    obtain ⟨r, hr, rfl⟩ := List.mem_map.1 (his i List.mem_cons_self)
    obtain ⟨fuel, hfuel⟩ := Nat.exists_eq_succ_of_ne_zero (Nat.ne_of_gt (Nat.zero_lt_of_lt h.reach_lt_limit))
    have hrest := ih (fun j hj => his j (List.mem_cons_of_mem _ hj)) fun r' hr' hi => hd r' hr' (List.mem_cons_of_mem _ hi)
    simp [Session.round, hfuel, h.readAll_end hr (hd r hr List.mem_cons_self), hrest]

/-- **Rounds end with everything read**, if there are two more of them than messages that may come. -/
theorem Sane.rounds (h : σ.Sane) (his : ∀ i ∈ is, i ∈ σ.readers.map index)
    (hfuel : σ.DrainedAt is ∧ 0 < fuel ∨ σ.budgets + 2 ≤ fuel) :
    ∃ log σ', Session.rounds is fuel σ = some (log, σ') ∧ Reads σ σ' ∧ σ'.DrainedAt is := by
  induction fuel generalizing σ with
  | zero => omega
  | succ fuel ih =>
    obtain ⟨log, σ₁, hlog, hreads, hread⟩ := h.round his
    by_cases hsame : σ₁.cursors = σ.cursors
    · -- nobody has read anything, so there was nothing to read
      obtain rfl : σ₁ = σ := hreads.same_or_lt.resolve_right (by rw [hsame]; exact lt_irrefl _)
      exact ⟨log, σ₁, by simp [Session.rounds, hlog], .refl h, h.drainedAt_of_round le_rfl hread⟩
    · have hbudget : σ.budgets + 2 ≤ fuel + 1 := by
        rcases hfuel with ⟨hd, -⟩ | hbudget
        · rw [h.round_drained his hd] at hlog
          obtain ⟨-, rfl⟩ := Prod.mk.inj (Option.some.inj hlog)
          exact absurd rfl hsame
        · exact hbudget
      have hnext : σ₁.DrainedAt is ∧ 0 < fuel ∨ σ₁.budgets + 2 ≤ fuel := by
        have hreach := hreads.reach_le
        rw [reach, reach] at hreach
        rcases Nat.lt_or_ge σ.board.length σ₁.board.length with hposted | hquiet
        · exact Or.inr (by omega)
        · exact Or.inl ⟨hreads.sane.drainedAt_of_round hquiet hread, by omega⟩
      obtain ⟨others, σ₂, hothers, hreads', hd⟩ := ih hreads.sane (fun i hi => hreads.indices ▸ his i hi) hnext
      exact ⟨log ++ others, σ₂, by simp [Session.rounds, hlog, hsame, hothers], hreads.trans hreads', hd⟩

/-- **Reading until nothing is left ends**, and then all who read have read everything. -/
theorem Sane.run (h : σ.Sane) (except : List Index) :
    ∃ log σ', σ.run except = some (log, σ') ∧ Reads σ σ' ∧
      ∀ r ∈ σ'.readers, index r ∉ except → r.cursor = σ'.board.length := by
  have his : ∀ i ∈ (σ.readers.map index).filter (· ∉ except), i ∈ σ.readers.map index := fun i hi =>
    (List.mem_filter.1 hi).1
  have hfuel : σ.DrainedAt ((σ.readers.map index).filter (· ∉ except)) ∧ 0 < σ.limit ∨ σ.budgets + 2 ≤ σ.limit := by
    rcases Nat.eq_zero_or_pos σ.board.length with hempty | hsome
    · refine Or.inl ⟨fun r hr _ => ?_, Nat.zero_lt_of_lt h.reach_lt_limit⟩
      have hle := h.cursor_le r hr
      omega
    · have hbudgets := h.budgets_le
      rw [limit_eq]
      exact Or.inr (by omega)
  obtain ⟨log, σ', hlog, hreads, hd⟩ := h.rounds his hfuel
  refine ⟨log, σ', hlog, hreads, fun r hr hnot => hd r hr (List.mem_filter.2 ⟨?_, by simpa using hnot⟩)⟩
  exact hreads.indices ▸ List.mem_map_of_mem hr

end Session

end DistributedKey
