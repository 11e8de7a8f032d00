/-
Sets and tables of indices as the lists they are sorted from.

- `IndexSet.perm_ofList`: the set of a list without repetitions is that list, sorted.
- `IndexSet.ext_elems`: a set is determined by its members. `IndexSet.size_filter_ne`: it has one more than without one.
- `IndexMap.mem_keys_ofList`, `IndexMap.mem_of_mem_ofList`: a table of entries has their indices, and no other entries.
- `IndexMap.mem_of_find?`, `IndexMap.find?_of_mem`: what is found under an index is the entry of that index.
- `IndexMap.find?_ofList`: of several entries with one index the last is found.
- `IndexMap.ofList_entries`: a table is rebuilt from its entries.
- `IndexMap.ofList_map`: a function of the values can be applied before or after the table is built.
- `Index.upTo_eq`: a loop over fewer than `2 ^ 32` shareholders goes through all of them. `Index.upTo_size`: one over
  `2 ^ 32` of them goes through none.
-/
import Mathlib.Tactic
import DistributedKey.Index

namespace DistributedKey.Index

variable {n : Nat} {i : Index}

theorem upTo_eq (hn : n < UInt32.size) : upTo n = (List.range n).map UInt32.ofNat := by
  rw [upTo, UInt32.toNat_ofNat_of_lt' hn]

theorem upTo_size : upTo UInt32.size = [] := rfl

theorem lt_of_mem_upTo (h : i ∈ upTo n) : i.toNat < n := by
  obtain ⟨j, hj, rfl⟩ := List.mem_map.1 h
  have hj : j < (UInt32.ofNat n).toNat := List.mem_range.1 hj
  exact lt_of_le_of_lt (Nat.mod_le _ _) (lt_of_lt_of_le hj (Nat.mod_le _ _))

/-- as many indices as there are words come in order -/
theorem sorted_map_range (hn : n ≤ UInt32.size) : ((List.range n).map UInt32.ofNat).Pairwise (· < ·) := by
  refine List.pairwise_map.2 (List.pairwise_lt_range.imp_of_mem fun {i j} hi hj hij => ?_)
  have hword : ∀ i ∈ List.range n, (UInt32.ofNat i).toNat = i := fun i hi =>
    UInt32.toNat_ofNat_of_lt' (lt_of_lt_of_le (List.mem_range.1 hi) hn)
  rw [UInt32.lt_iff_toNat_lt, hword i hi, hword j hj]
  exact hij

theorem sorted_upTo (n : Nat) : (upTo n).Pairwise (· < ·) := sorted_map_range (UInt32.toNat_lt _).le

theorem nodup_upTo (n : Nat) : (upTo n).Nodup := (sorted_upTo n).imp UInt32.ne_of_lt

end DistributedKey.Index

namespace DistributedKey.IndexSet

variable {i : Index} {l : List Index} {s t : IndexSet}

theorem not_mem_empty : i ∉ empty := List.not_mem_nil

theorem mem_elems : i ∈ s.elems ↔ i ∈ s := Iff.rfl

theorem mem_foldl_insert : i ∈ l.foldl insert s ↔ i ∈ l ∨ i ∈ s := by
  induction l generalizing s with
  | nil => simp
  | cons j l ih => simp [ih, or_left_comm, or_assoc]

@[simp] theorem mem_ofList : i ∈ ofList l ↔ i ∈ l := by
  rw [ofList, mem_foldl_insert]
  exact or_iff_left not_mem_empty

@[simp] theorem mem_filter {P : Index → Bool} : i ∈ s.filter P ↔ i ∈ s ∧ P i := List.mem_filter

theorem nodup_elems (s : IndexSet) : s.elems.Nodup := s.sorted.imp fun h => UInt32.ne_of_lt h

/-- the set of a list without repetitions is that list, sorted -/
theorem perm_ofList (h : l.Nodup) : (ofList l).elems.Perm l :=
  (List.perm_ext_iff_of_nodup (nodup_elems _) h).2 fun _ => mem_ofList

theorem size_ofList (h : l.Nodup) : (ofList l).size = l.length := (perm_ofList h).length_eq

theorem card_indices (h : l.Nodup) : (l.map UInt32.toNat).toFinset.card = l.length := by
  rw [List.toFinset_card_of_nodup (h.map fun _ _ => UInt32.toNat_inj.1), List.length_map]

theorem length_place (h : i ∉ l) : (place i l).length = l.length + 1 := by
  induction l with
  | nil => rfl
  | cons j l ih =>
    rw [List.mem_cons, not_or] at h
    rw [place]
    split_ifs with hlt heq
    · rfl
    · exact absurd heq h.1
    · rw [List.length_cons, ih h.2, List.length_cons]

theorem size_insert (h : i ∉ s) : (s.insert i).size = s.size + 1 := length_place h

/-- indices are words -/
theorem length_le_of_nodup (h : l.Nodup) : l.length ≤ UInt32.size := by
  rw [← card_indices h, ← Finset.card_range UInt32.size]
  refine Finset.card_le_card fun i hi => ?_
  obtain ⟨j, -, rfl⟩ := List.mem_map.1 (List.mem_toFinset.1 hi)
  exact Finset.mem_range.2 j.toNat_lt

/-- two increasing lists with the same members are equal -/
theorem eq_of_mem_iff {l l' : List Index} (h : l.Pairwise (· < ·)) (h' : l'.Pairwise (· < ·))
    (hmem : ∀ i, i ∈ l ↔ i ∈ l') : l = l' := by
  refine List.Perm.eq_of_pairwise (fun a b _ _ hab hba => ?_) h h'
    ((List.perm_ext_iff_of_nodup (h.imp UInt32.ne_of_lt) (h'.imp UInt32.ne_of_lt)).2 hmem)
  exact absurd (UInt32.lt_trans hab hba) (UInt32.lt_irrefl a)

theorem ext_elems (h : ∀ i, i ∈ s ↔ i ∈ t) : s = t := by
  obtain ⟨l, hl⟩ := s
  obtain ⟨l', hl'⟩ := t
  obtain rfl := eq_of_mem_iff hl hl' h
  rfl

/-- one member taken away -/
theorem size_filter_ne (h : i ∈ s) : (s.filter (· ≠ i)).size + 1 = s.size := by
  have herase : (s.filter (· ≠ i)).elems = s.elems.erase i := by
    rw [s.nodup_elems.erase_eq_filter]
    exact List.filter_congr fun j _ => by by_cases hj : j = i <;> simp [hj]
  have hpos : 0 < s.elems.length := List.length_pos_of_mem h
  rw [size, size, herase, List.length_erase_of_mem h]
  omega

theorem ofList_elems (s : IndexSet) : ofList s.elems = s := ext_elems fun _ => mem_ofList

/-- the `t` lowest members, or all if there are fewer -/
def least (t : Nat) (s : IndexSet) : IndexSet := ⟨s.elems.take t, s.sorted.sublist (List.take_sublist t _)⟩

theorem mem_of_mem_least {t : Nat} (h : i ∈ s.least t) : i ∈ s := List.mem_of_mem_take h

theorem size_least {t : Nat} (h : t ≤ s.size) : (s.least t).size = t := by
  rw [size, least, List.length_take]
  exact min_eq_left h

end DistributedKey.IndexSet

namespace DistributedKey.IndexMap

variable {α β : Type} {i : Index} {a : α} {l : List (Index × α)} {m : IndexMap α}

theorem mem_map_fst_place {j : Index} : j ∈ (place i a l).map (·.1) ↔ j = i ∨ j ∈ l.map (·.1) := by
  induction l with
  | nil => simp [place]
  | cons x rest ih =>
    obtain ⟨k, b⟩ := x
    simp only [place]
    split_ifs with hlt heq
    · simp
    · subst heq
      simp
    · simp only [List.map_cons, List.mem_cons, ih]
      exact or_left_comm

theorem mem_keys_foldl {j : Index} :
    j ∈ (l.foldl (fun m e => m.insert e.1 e.2) m).keys ↔ j ∈ l.map (·.1) ∨ j ∈ m.keys := by
  induction l generalizing m with
  | nil => simp
  | cons e l ih =>
    rw [List.foldl_cons, ih]
    simp only [insert, keys, mem_map_fst_place, List.map_cons, List.mem_cons]
    exact or_left_comm.trans or_assoc.symm

theorem mem_keys_ofList {j : Index} : j ∈ (ofList l).keys ↔ j ∈ l.map (·.1) := by
  rw [ofList, mem_keys_foldl]
  exact or_iff_left List.not_mem_nil

theorem mem_entries_foldl {e : Index × α} (h : e ∈ (l.foldl (fun m e => m.insert e.1 e.2) m).entries) :
    e ∈ l ∨ e ∈ m.entries := by
  induction l generalizing m with
  | nil => exact Or.inr h
  | cons x l ih =>
    rcases ih h with h | h
    · exact Or.inl (List.mem_cons_of_mem _ h)
    · rcases mem_place h with rfl | h
      · exact Or.inl List.mem_cons_self
      · exact Or.inr h

theorem mem_of_mem_ofList {e : Index × α} (h : e ∈ (ofList l).entries) : e ∈ l :=
  (mem_entries_foldl h).resolve_right List.not_mem_nil

theorem nodup_keys (m : IndexMap α) : m.keys.Nodup := by
  have hsorted : m.keys.Pairwise (· < ·) := List.pairwise_map.2 m.sorted
  exact hsorted.imp fun h => UInt32.ne_of_lt h

theorem mem_of_find? (h : m.find? i = some a) : (i, a) ∈ m.entries := by
  obtain ⟨⟨j, b⟩, hfind, rfl⟩ := Option.map_eq_some_iff.1 h
  obtain rfl : j = i := by simpa using List.find?_some hfind
  exact List.mem_of_find?_eq_some hfind

theorem find?_of_mem_keys (h : i ∈ m.keys) : ∃ a, (i, a) ∈ m.entries ∧ m.find? i = some a := by
  obtain ⟨e, he, rfl⟩ := List.mem_map.1 h
  have hsome : (m.entries.find? (·.1 = e.1)).isSome := List.find?_isSome.2 ⟨e, he, by simp⟩
  obtain ⟨⟨j, a⟩, hfind⟩ := Option.isSome_iff_exists.1 hsome
  obtain rfl : j = e.1 := by simpa using List.find?_some hfind
  exact ⟨a, List.mem_of_find?_eq_some hfind, by rw [find?, hfind]; rfl⟩

theorem find?_of_mem (h : (i, a) ∈ m.entries) : m.find? i = some a := by
  obtain ⟨b, hb, hfind⟩ := find?_of_mem_keys (List.mem_map_of_mem h)
  obtain rfl : b = a := congrArg Prod.snd (List.inj_on_of_nodup_map m.nodup_keys hb h rfl)
  exact hfind

/-- entries are found again under their keys -/
theorem filterMap_find? (h : ∀ e ∈ l, e ∈ m.entries) :
    (l.map (·.1)).filterMap (fun i => (m.find? i).map fun a => (i, a)) = l := by
  rw [List.filterMap_map]
  have hfound : ∀ e ∈ l, ((fun i => (m.find? i).map fun a => (i, a)) ∘ (·.1)) e = some e := by
    rintro ⟨i, a⟩ he
    simp [find?_of_mem (h _ he)]
  rw [List.filterMap_congr hfound, List.filterMap_some]

theorem find?_place_self : (place i a l).find? (·.1 = i) = some (i, a) := by
  induction l with
  | nil => simp [place]
  | cons e l ih =>
    obtain ⟨k, b⟩ := e
    rw [place]
    split_ifs with hlt heq
    · simp
    · simp
    · rw [List.find?_cons_of_neg (by simpa using Ne.symm heq), ih]

theorem find?_place_of_ne {j : Index} (h : i ≠ j) : (place i a l).find? (·.1 = j) = l.find? (·.1 = j) := by
  induction l with
  | nil => simp [place, h]
  | cons e l ih =>
    obtain ⟨k, b⟩ := e
    rw [place]
    split_ifs with hlt heq
    · exact List.find?_cons_of_neg (by simpa using h)
    · subst heq
      rw [List.find?_cons_of_neg (by simpa using h), List.find?_cons_of_neg (by simpa using h)]
    · rw [List.find?_cons, ih, List.find?_cons]

theorem find?_insert {j : Index} : (m.insert i a).find? j = if i = j then some a else m.find? j := by
  rw [find?, find?, insert]
  split_ifs with hij
  · rw [← hij, find?_place_self]
    rfl
  · rw [find?_place_of_ne hij]

theorem find?_foldl {j : Index} : (l.foldl (fun m e => m.insert e.1 e.2) m).find? j =
    ((l.reverse.find? (·.1 = j)).map (·.2)).or (m.find? j) := by
  induction l generalizing m with
  | nil => rfl
  | cons e l ih =>
    rw [List.foldl_cons, ih, find?_insert, List.reverse_cons, List.find?_append, Option.map_or, Option.or_assoc]
    by_cases hj : e.1 = j <;> simp [hj]

/-- of several entries with one index the last is found -/
theorem find?_ofList {j : Index} : (ofList l).find? j = (l.reverse.find? (·.1 = j)).map (·.2) := by
  rw [ofList, find?_foldl]
  exact Option.or_none

/-- the table of the images of the values -/
def map (f : α → β) (m : IndexMap α) : IndexMap β :=
  ⟨m.entries.map (Prod.map id f), List.pairwise_map.2 m.sorted⟩

theorem find?_map (f : α → β) : (m.map f).find? i = (m.find? i).map f := by
  rw [find?, find?, map, List.find?_map, Option.map_map, Option.map_map]
  rfl

theorem place_map (f : α → β) : place i (f a) (l.map (Prod.map id f)) = (place i a l).map (Prod.map id f) := by
  induction l with
  | nil => rfl
  | cons x rest ih =>
    obtain ⟨j, b⟩ := x
    simp only [place, List.map_cons, Prod.map_apply, id_eq]
    split_ifs
    · rfl
    · rfl
    · simp [ih]

theorem foldl_insert_map (f : α → β) :
    (l.map (Prod.map id f)).foldl (fun m e => m.insert e.1 e.2) (m.map f) =
      (l.foldl (fun m e => m.insert e.1 e.2) m).map f := by
  induction l generalizing m with
  | nil => rfl
  | cons e l ih =>
    have hinsert : (m.map f).insert e.1 (f e.2) = (m.insert e.1 e.2).map f := by
      simp only [insert, map, place_map]
    rw [List.map_cons, List.foldl_cons, List.foldl_cons, ← ih, ← hinsert]
    rfl

theorem place_of_forall_lt (h : ∀ e ∈ l, e.1 < i) : place i a l = l ++ [(i, a)] := by
  induction l with
  | nil => rfl
  | cons e l ih =>
    obtain ⟨j, b⟩ := e
    have hj : j < i := h _ List.mem_cons_self
    rw [place, if_neg (UInt32.not_lt.2 (UInt32.le_of_lt hj)), if_neg (UInt32.ne_of_lt hj).symm,
      ih fun e he => h e (List.mem_cons_of_mem _ he)]
    rfl

/-- entries that come in order are put one behind the other -/
theorem foldl_insert_of_pairwise (h : (m.entries ++ l).Pairwise fun a b => a.1 < b.1) :
    (l.foldl (fun m e => m.insert e.1 e.2) m).entries = m.entries ++ l := by
  induction l generalizing m with
  | nil => exact (List.append_nil _).symm
  | cons e l ih =>
    have hplace : (m.insert e.1 e.2).entries = m.entries ++ [e] :=
      place_of_forall_lt fun x hx => (List.pairwise_append.1 h).2.2 x hx e List.mem_cons_self
    have hsplit : m.entries ++ e :: l = (m.insert e.1 e.2).entries ++ l := by
      rw [hplace, List.append_assoc]
      rfl
    rw [List.foldl_cons, ih (hsplit ▸ h), hsplit]

theorem ofList_of_pairwise (h : l.Pairwise fun a b => a.1 < b.1) : (ofList l).entries = l :=
  foldl_insert_of_pairwise (m := empty) h

theorem ofList_entries (m : IndexMap α) : ofList m.entries = m := by
  have hentries := ofList_of_pairwise m.sorted
  cases hm : ofList m.entries
  cases m
  rw [hm] at hentries
  congr

theorem ofList_map (f : α → β) : ofList (l.map (Prod.map id f)) = (ofList l).map f :=
  foldl_insert_map (m := empty) f

/-- a table is rebuilt from its entries, whatever is done to the values on the way -/
theorem ofList_map_entries (f : α → β) (m : IndexMap α) : ofList (m.entries.map fun e => (e.1, f e.2)) = m.map f := by
  have hmap := ofList_map f (l := m.entries)
  rw [ofList_entries] at hmap
  exact hmap

@[simp] theorem keys_map (f : α → β) (m : IndexMap α) : (m.map f).keys = m.keys := by
  rw [keys, keys, map, List.map_map]
  rfl

end DistributedKey.IndexMap
