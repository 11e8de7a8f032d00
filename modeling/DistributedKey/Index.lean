/-
Shareholder indices, and sets and tables of them in increasing order.

- `IndexSet` and `IndexMap` keep their order in the type, so equal sets and equal tables are equal values, and a
  table is written the same way whatever order its entries came in.
- `insert` replaces the entry of an index that is there, so of several entries with one index the last counts.
- `Index.upTo n`: the indices that a loop over `n` shareholders goes through. It ends at `n` as a word.
-/

namespace DistributedKey

/-- the position of a shareholder, counted from zero -/
abbrev Index := UInt32

/-- the indices from zero up to a number taken as an index: all that are below it, but none for `2 ^ 32` -/
def Index.upTo (n : Nat) : List Index := (List.range (UInt32.ofNat n).toNat).map UInt32.ofNat

/-- indices in increasing order, each once -/
structure IndexSet where
  elems : List Index
  sorted : elems.Pairwise (· < ·)
deriving DecidableEq

/-- one entry an index, in increasing order of index -/
structure IndexMap (α : Type) where
  entries : List (Index × α)
  sorted : entries.Pairwise fun a b => a.1 < b.1

namespace IndexMap

variable {α : Type}

instance [DecidableEq α] : DecidableEq (IndexMap α) := fun a b =>
  if h : a.entries = b.entries then isTrue (by cases a; cases b; cases h; rfl)
  else isFalse fun e => h (e ▸ rfl)

def empty : IndexMap α := ⟨[], .nil⟩

/-- puts an entry at its place -/
def place (i : Index) (a : α) : List (Index × α) → List (Index × α)
  | [] => [(i, a)]
  | (j, b) :: rest =>
    if i < j then (i, a) :: (j, b) :: rest
    else if i = j then (i, a) :: rest
    else (j, b) :: place i a rest

theorem mem_place {i : Index} {a : α} {l : List (Index × α)} {e : Index × α} (h : e ∈ place i a l) :
    e = (i, a) ∨ e ∈ l := by
  induction l with
  | nil => simp [place] at h; exact .inl h
  | cons x rest ih =>
    obtain ⟨j, b⟩ := x
    simp only [place] at h
    split at h
    · simpa using h
    · split at h
      · rcases List.mem_cons.1 h with h | h
        · exact .inl h
        · exact .inr (List.mem_cons_of_mem _ h)
      · rcases List.mem_cons.1 h with h | h
        · exact .inr (h ▸ List.mem_cons_self)
        · exact (ih h).imp_right (List.mem_cons_of_mem _)

theorem sorted_place (i : Index) (a : α) {l : List (Index × α)} (h : l.Pairwise fun a b => a.1 < b.1) :
    (place i a l).Pairwise fun a b => a.1 < b.1 := by
  induction l with
  | nil => simp [place]
  | cons x rest ih =>
    obtain ⟨j, b⟩ := x
    obtain ⟨hx, hrest⟩ := List.pairwise_cons.1 h
    simp only [place]
    split
    · rename_i hij
      refine List.pairwise_cons.2 ⟨fun e he => ?_, h⟩
      rcases List.mem_cons.1 he with rfl | he
      · exact hij
      · exact UInt32.lt_trans hij (hx e he)
    · split
      · rename_i hij
        exact List.pairwise_cons.2 ⟨fun e he => hij ▸ hx e he, hrest⟩
      · rename_i h1 h2
        refine List.pairwise_cons.2 ⟨fun e he => ?_, ih hrest⟩
        rcases mem_place he with rfl | he
        · exact UInt32.lt_of_le_of_ne (UInt32.not_lt.1 h1) (Ne.symm h2)
        · exact hx e he

def insert (m : IndexMap α) (i : Index) (a : α) : IndexMap α := ⟨place i a m.entries, sorted_place i a m.sorted⟩

/-- of several entries with one index the last counts -/
def ofList (l : List (Index × α)) : IndexMap α := l.foldl (fun m e => m.insert e.1 e.2) empty

def find? (m : IndexMap α) (i : Index) : Option α := (m.entries.find? (·.1 = i)).map (·.2)

def keys (m : IndexMap α) : List Index := m.entries.map (·.1)

def size (m : IndexMap α) : Nat := m.entries.length

end IndexMap

namespace IndexSet

def empty : IndexSet := ⟨[], .nil⟩

instance : Membership Index IndexSet := ⟨fun s i => i ∈ s.elems⟩

instance (i : Index) (s : IndexSet) : Decidable (i ∈ s) := inferInstanceAs (Decidable (i ∈ s.elems))

def place (i : Index) : List Index → List Index
  | [] => [i]
  | j :: rest => if i < j then i :: j :: rest else if i = j then j :: rest else j :: place i rest

theorem mem_place {i j : Index} {l : List Index} : j ∈ place i l ↔ j = i ∨ j ∈ l := by
  induction l with
  | nil => simp [place]
  | cons x rest ih =>
    simp only [place]
    split
    · simp
    · split
      · rename_i h; subst h; simp
      · simp only [List.mem_cons, ih]
        constructor
        · rintro (h | h | h) <;> simp [h]
        · rintro (h | h | h) <;> simp [h]

theorem sorted_place (i : Index) {l : List Index} (h : l.Pairwise (· < ·)) : (place i l).Pairwise (· < ·) := by
  induction l with
  | nil => simp [place]
  | cons x rest ih =>
    obtain ⟨hx, hrest⟩ := List.pairwise_cons.1 h
    simp only [place]
    split
    · rename_i hij
      refine List.pairwise_cons.2 ⟨fun e he => ?_, h⟩
      rcases List.mem_cons.1 he with rfl | he
      · exact hij
      · exact UInt32.lt_trans hij (hx e he)
    · split
      · exact h
      · rename_i h1 h2
        refine List.pairwise_cons.2 ⟨fun e he => ?_, ih hrest⟩
        rcases mem_place.1 he with rfl | he
        · exact UInt32.lt_of_le_of_ne (UInt32.not_lt.1 h1) (Ne.symm h2)
        · exact hx e he

def insert (s : IndexSet) (i : Index) : IndexSet := ⟨place i s.elems, sorted_place i s.sorted⟩

def ofList (l : List Index) : IndexSet := l.foldl insert empty

def size (s : IndexSet) : Nat := s.elems.length

/-- the members for which `p` holds -/
def filter (s : IndexSet) (p : Index → Bool) : IndexSet := ⟨s.elems.filter p, s.sorted.filter _⟩

@[simp] theorem mem_insert {s : IndexSet} {i j : Index} : j ∈ s.insert i ↔ j = i ∨ j ∈ s := mem_place

end IndexSet

end DistributedKey
