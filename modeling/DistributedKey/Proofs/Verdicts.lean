/-
The matrix of verdicts cell by cell: what `setRow?` and `set` leave at every other place, and the number of successes of
a dealer beside the set of reporters who mark it (`successesFor_le_card`, and `successesFor_eq_card` below `2 ^ 32` rows).

- `Grows m m'`: cells that say success still do. Storing an absent row and turning a cell into a success both grow the
  matrix, and in a grown matrix no dealer has fewer successes (`Grows.successesFor_le`).
-/
import Mathlib.Tactic
import Mathlib.Data.Finset.Card
import DistributedKey.Status
import DistributedKey.Proofs.Index

namespace DistributedKey.StatusMatrix

variable {m m' : StatusMatrix} {j : Index} {row : List (Option Status)}

/-- the row of a reporter, if it announced one -/
def row? (m : StatusMatrix) (j : Nat) : Option (List (Option Status)) := (m.rows[j]?).join

/-- the cell of any reporter's row for a dealer -/
def cell (m : StatusMatrix) (j d : Nat) : Option Status := (m.row? j).bind fun cells => (cells[d]?).join

theorem get_eq_cell (m : StatusMatrix) (j d : Index) : m.get j d = m.cell j.toNat d.toNat := rfl

theorem row?_eq_some {k : Nat} : m.row? k = some row ↔ m.rows[k]? = some (some row) := by
  simp [row?, Option.join_eq_some_iff]

theorem cell_eq_some {k d : Nat} {s : Status} :
    m.cell k d = some s ↔ ∃ cells, m.row? k = some cells ∧ cells[d]? = some (some s) := by
  simp [cell, Option.bind_eq_some_iff, Option.join_eq_some_iff]

theorem hasRow?_eq_some {b : Bool} :
    m.hasRow? j = some b ↔ j.toNat < m.rows.length ∧ (m.row? j.toNat).isSome = b := by
  unfold hasRow? row?
  by_cases h : j.toNat < m.rows.length
  · simp [h]
  · simp [h]

theorem setRow?_eq_some :
    m.setRow? j row = some m' ↔ j.toNat < m.rows.length ∧ ⟨m.rows.set j.toNat (some row)⟩ = m' := by
  unfold setRow?
  split_ifs with h <;> simp [h]

/-! ## one row, one cell -/

theorem row?_setRow {k : Nat} (h : j.toNat < m.rows.length) :
    (⟨m.rows.set j.toNat (some row)⟩ : StatusMatrix).row? k = if k = j.toNat then some row else m.row? k := by
  unfold row?
  rw [List.getElem?_set]
  split_ifs with h1 h2 h2
  · rfl
  · exact absurd h1.symm h2
  · exact absurd h2.symm h1
  · rfl

theorem rows_set (m : StatusMatrix) (j d : Index) (s : Status) :
    (m.set j d s).rows =
      m.rows.modify j.toNat fun row => row.map fun cells => cells.set d.toNat (some s) := rfl

theorem row?_set {k : Nat} {d : Index} {s : Status} :
    (m.set j d s).row? k =
      if k = j.toNat then (m.row? k).map fun cells => cells.set d.toNat (some s) else m.row? k := by
  unfold row?
  rw [rows_set, List.getElem?_modify]
  split_ifs with h1 h2 h2
  · cases hk : m.rows[k]? with
    | none => rfl
    | some r => cases r <;> rfl
  · exact absurd h1.symm h2
  · exact absurd h2.symm h1
  · simp

theorem cell_set_self {d : Index} {s t : Status} (h : m.cell j.toNat d.toNat = some t) :
    (m.set j d s).cell j.toNat d.toNat = some s := by
  obtain ⟨cells, hrow, hcell⟩ := cell_eq_some.1 h
  have hd : d.toNat < cells.length := (List.getElem?_eq_some_iff.1 hcell).1
  rw [cell_eq_some]
  exact ⟨cells.set d.toNat (some s), by simp [row?_set, hrow], by simp [hd]⟩

theorem cell_set_of_ne {k e : Nat} {d : Index} {s : Status} (h : ¬ (k = j.toNat ∧ e = d.toNat)) :
    (m.set j d s).cell k e = m.cell k e := by
  unfold cell
  rw [row?_set]
  split_ifs with hk
  · have he : e ≠ d.toNat := fun he => h ⟨hk, he⟩
    cases m.row? k with
    | none => rfl
    | some cells => simp [Ne.symm he]
  · rfl

/-- in a row that is there, one cell is overwritten and everything else stays -/
theorem set_eq_setRow {d : Index} {s : Status} (h : m.row? j.toNat = some row) :
    m.set j d s = ⟨m.rows.set j.toNat (some (row.set d.toNat (some s)))⟩ := by
  rw [set, List.modify_eq_set_getElem?, row?_eq_some.1 h]
  rfl

/-! ## counting successes -/

/-- the reporters whose vector marks dealer `d` as a success -/
def endorsers (m : StatusMatrix) (d : Nat) : Finset Nat :=
  (Finset.range m.rows.length).filter fun j => m.cell j d = some .success

theorem mem_endorsers {k d : Nat} : k ∈ m.endorsers d ↔ m.cell k d = some .success := by
  simp only [endorsers, Finset.mem_filter, Finset.mem_range, and_iff_right_iff_imp]
  intro h
  obtain ⟨cells, hrow, -⟩ := cell_eq_some.1 h
  exact (List.getElem?_eq_some_iff.1 (row?_eq_some.1 hrow)).1

/-- what is counted are endorsers -/
theorem successesFor_le_card (m : StatusMatrix) (d : Index) : m.successesFor d ≤ (m.endorsers d.toNat).card := by
  rw [successesFor, List.countP_eq_length_filter, ← IndexSet.card_indices ((Index.nodup_upTo _).filter _)]
  refine Finset.card_le_card fun k hk => ?_
  obtain ⟨j, hj, rfl⟩ := List.mem_map.1 (List.mem_toFinset.1 hk)
  have hsuccess : m.get j d = some .success := of_decide_eq_true (List.mem_filter.1 hj).2
  exact mem_endorsers.2 (m.get_eq_cell j d ▸ hsuccess)

/-- as long as the rows are fewer than `2 ^ 32`, all endorsers are counted -/
theorem successesFor_eq_card (hrows : m.rows.length < UInt32.size) (d : Index) :
    m.successesFor d = (m.endorsers d.toNat).card := by
  refine le_antisymm (m.successesFor_le_card d) ?_
  rw [successesFor, List.countP_eq_length_filter, ← IndexSet.card_indices ((Index.nodup_upTo _).filter _)]
  refine Finset.card_le_card fun k hk => List.mem_toFinset.2 (List.mem_map.2 ?_)
  have hk' := mem_endorsers.1 hk
  have hlt : k < m.rows.length := Finset.mem_range.1 (Finset.mem_filter.1 hk).1
  have hword : (UInt32.ofNat k).toNat = k := UInt32.toNat_ofNat_of_lt' (lt_trans hlt hrows)
  refine ⟨UInt32.ofNat k, List.mem_filter.2 ⟨?_, ?_⟩, hword⟩
  · rw [Index.upTo_eq hrows]
    exact List.mem_map_of_mem (List.mem_range.2 hlt)
  · rw [decide_eq_true_iff, get_eq_cell, hword]
    exact hk'

/-- a matrix of as many rows, in which every cell that says success still does -/
structure Grows (m m' : StatusMatrix) : Prop where
  length : m'.rows.length = m.rows.length
  cell : ∀ j d, m.cell j d = some .success → m'.cell j d = some .success

theorem Grows.refl (m : StatusMatrix) : Grows m m := ⟨rfl, fun _ _ h => h⟩

theorem Grows.trans {m'' : StatusMatrix} (h : Grows m m') (h' : Grows m' m'') : Grows m m'' :=
  ⟨h'.length.trans h.length, fun j d hc => h'.cell j d (h.cell j d hc)⟩

theorem Grows.successesFor_le (h : Grows m m') (d : Index) : m.successesFor d ≤ m'.successesFor d := by
  rw [successesFor, successesFor, h.length]
  refine List.countP_mono_left fun j _ hj => ?_
  rw [decide_eq_true_iff, get_eq_cell] at hj ⊢
  exact h.cell _ _ hj

theorem Grows.endorsers_subset (h : Grows m m') (d : Nat) : m.endorsers d ⊆ m'.endorsers d := fun k hk =>
  mem_endorsers.2 (h.cell k d (mem_endorsers.1 hk))

theorem grows_setRow (hj : j.toNat < m.rows.length) (h : m.row? j.toNat = none) :
    Grows m ⟨m.rows.set j.toNat (some row)⟩ := by
  refine ⟨List.length_set, fun k d hc => ?_⟩
  obtain ⟨cells, hrow, hcell⟩ := cell_eq_some.1 hc
  have hk : k ≠ j.toNat := by rintro rfl; rw [h] at hrow; cases hrow
  exact cell_eq_some.2 ⟨cells, by rw [row?_setRow hj, if_neg hk, hrow], hcell⟩

theorem grows_set (m : StatusMatrix) (j d : Index) : Grows m (m.set j d .success) := by
  refine ⟨List.length_modify .., fun k e hc => ?_⟩
  by_cases h : k = j.toNat ∧ e = d.toNat
  · obtain ⟨rfl, rfl⟩ := h
    exact cell_set_self hc
  · rwa [cell_set_of_ne h]

end DistributedKey.StatusMatrix
