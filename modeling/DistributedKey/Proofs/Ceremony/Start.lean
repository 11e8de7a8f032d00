/-
What a ceremony starts from.

- `Crew`: its shareholders, before any message, numbered by position and with the behaviors that are asked for.
- `start_eq_ok`: a ceremony that starts has valid parameters, no behavior too many, and a crew on an empty board.
- `exists_start`: with such parameters it starts, if its shareholders can be numbered. `start_overfull`: with more of them
  than indices it does not, unless two keys are the same.
- `start_ne_disagreement`: whatever keeps it from starting, nobody disagrees yet.
-/
import DistributedKey.Ceremony
import DistributedKey.Proofs.Network.Agreement

namespace DistributedKey

theorem mapM_eq_ok {ε α β : Type} {f : α → Except ε β} {l : List α} {l' : List β} :
    l.mapM f = .ok l' ↔ l.map f = l'.map .ok := by
  induction l generalizing l' with
  | nil => cases l' <;> simp [pure, Except.pure]
  | cons a l ih =>
    cases l' with
    | nil => cases hf : f a <;> cases hl : l.mapM f <;> simp [hf, hl, bind, Except.bind, pure, Except.pure]
    | cons b l' =>
      rw [List.map_cons, List.map_cons, List.cons.injEq, ← ih]
      cases hf : f a <;> cases hl : l.mapM f <;> simp [hf, hl, bind, Except.bind, pure, Except.pure]

section

variable {ε α β γ : Type} {e : ε} {f : α → Except ε β} {l : List α} {l' : List β}

theorem exists_mapM (h : ∀ a ∈ l, ∃ b, f a = .ok b) : ∃ l', l.mapM f = .ok l' := by
  induction l with
  | nil => exact ⟨[], rfl⟩
  | cons a l ih =>
    obtain ⟨b, hb⟩ := h a List.mem_cons_self
    obtain ⟨l', hl'⟩ := ih fun a' ha' => h a' (List.mem_cons_of_mem _ ha')
    exact ⟨b :: l', by rw [List.mapM_cons, hb, hl']; rfl⟩

/-- a list goes as far as its first failure -/
theorem mapM_eq_error {a : α} (hl : ∀ a ∈ l, ∃ b, f a = .ok b) (ha : f a = .error e) (later : List α) :
    (l ++ a :: later).mapM f = .error e := by
  induction l with
  | nil => rw [List.nil_append, List.mapM_cons, ha]; rfl
  | cons a' l ih =>
    obtain ⟨b, hb⟩ := hl a' List.mem_cons_self
    rw [List.cons_append, List.mapM_cons, hb, ih fun a'' ha'' => hl a'' (List.mem_cons_of_mem _ ha'')]
    rfl

theorem exists_range_eq {m n : Nat} (h : m < n) : ∃ later, List.range n = List.range m ++ m :: later := by
  obtain ⟨more, rfl⟩ := Nat.exists_eq_add_of_lt h
  exact ⟨(List.range more).map fun i => m + (i + 1), by
    rw [Nat.add_assoc, List.range_add, List.range_succ_eq_map, List.map_cons, List.map_map]; rfl⟩

/-- what every answer shows of its question -/
theorem map_eq_of_mapM {p : β → γ} {q : α → γ} (h : l.mapM f = .ok l') (hpq : ∀ a b, f a = .ok b → p b = q a) :
    l'.map p = l.map q := by
  rw [mapM_eq_ok] at h
  induction l generalizing l' with
  | nil =>
    obtain rfl := List.map_eq_nil_iff.1 h.symm
    rfl
  | cons a l ih =>
    obtain ⟨b, rest, rfl, hb, hrest⟩ := List.map_eq_cons_iff.1 h.symm
    rw [List.map_cons, List.map_cons, hpq a b hb.symm, ih hrest.symm]

theorem throw_ne_error {e' : ε} (he : e' ≠ e) : (throw e' : Except ε α) ≠ .error e := fun h => he (Except.error.inj h)

theorem mapM_ne_error (hf : ∀ a, f a ≠ .error e) (l : List α) : l.mapM f ≠ .error e := by
  induction l with
  | nil => exact pure_ne_error
  | cons a l ih =>
    rw [List.mapM_cons]
    exact bind_ne_error (hf a) fun b _ => bind_ne_error ih fun bs _ => pure_ne_error

end

variable {F G : Type}

/-! ## nobody disagrees at the start -/

theorem Config.validate_ne_disagreement (config : Config) (matter : String) :
    config.validate ≠ .error (.disagreement matter) := by
  rw [Config.validate_eq]
  split_ifs <;> simp [Config.invalid]

theorem Group.create_ne_disagreement (keys : List G) (config : Config) (matter : String) :
    Group.create keys config ≠ .error (.disagreement matter) := by
  refine bind_ne_error (config.validate_ne_disagreement matter) fun _ _ => ?_
  dsimp only
  split_ifs
  · exact bind_ne_error (throw_ne_error Failure.noConfusion) fun _ _ => pure_ne_error
  · exact pure_ne_error

theorem Roster.draw_ne_disagreement [Sampled F] (n : Nat) (rng : Random) (matter : String) :
    (draw n rng : Except Failure (Roster F)) ≠ .error (.disagreement matter) := by
  refine bind_ne_error ?_ fun _ _ => pure_ne_error
  unfold checkLength
  split_ifs <;> simp

section

variable [Suite F G] [SMul F G]

theorem Shareholder.create_ne_disagreement [Sampled F] [DecidableEq G] (index : Index) (privateKey : F)
    (group : Group G) (behavior : Behavior) (rng : Random) (matter : String) :
    Shareholder.create index privateKey group behavior rng ≠ .error (.disagreement matter) := by
  refine bind_ne_error (group.config.validate_ne_disagreement matter) fun _ _ => ?_
  split
  · exact throw_ne_error Failure.noConfusion
  · dsimp only
    split_ifs
    · exact bind_ne_error (throw_ne_error Failure.noConfusion) fun _ _ => pure_ne_error
    · exact pure_ne_error

namespace Ceremony

variable {config : Config} {behaviors : List Behavior} {rng : Random}

/-! ## the crew -/

/-- the shareholders of a run, before any message -/
structure Crew (config : Config) (behaviors : List Behavior) (machines : List (Shareholder F G)) : Prop where
  fresh : ∀ m ∈ machines, m.Fresh
  group : ∃ keys group, Group.create keys config = .ok group ∧ ∀ m ∈ machines, m.group = group
  indices : machines.map (·.index) = (List.range config.n.toNat).map UInt32.ofNat
  behaviors : machines.map (·.behavior) = (List.range config.n.toNat).map (behaviors.getD · .honest)

section

variable {machines : List (Shareholder F G)}

theorem Crew.params (h : Crew config behaviors machines) :
    ∀ m ∈ machines, m.params = ⟨config.n.toNat, config.k.toNat, config.f.toNat⟩ := by
  obtain ⟨keys, group, hgroup, hmachines⟩ := h.group
  intro m hm
  obtain ⟨-, hkeys, hparts⟩ := create_eq_ok hgroup
  rw [Shareholder.params, hmachines m hm, hparts, Group.params, Group.size, List.length_mapIdx, hkeys]

theorem Crew.valid [Zero G] [DecidableEq G] (h : Crew config behaviors machines) : ∀ m ∈ machines, m.Valid :=
  fun m hm => (h.fresh m hm).valid

theorem Crew.length_eq (h : Crew config behaviors machines) : machines.length = config.n.toNat := by
  have hlengths := congrArg List.length h.indices
  rwa [List.length_map, List.length_map, List.length_range] at hlengths

end

section

variable {roster : Roster F} {group : Group G} {i : Nat}

/-- the keys are drawn one after the other, as long as they can be addressed, and make a group -/
theorem exists_roster [Sampled F] (hconfig : config.validate = .ok ())
    (hn : config.n.toNat * Roster.keyWidth < 2 ^ 63) (rng : Random) :
    ∃ (roster : Roster F) (group : Group G), Roster.draw config.n.toNat rng = .ok roster ∧
      roster.group config = .ok group ∧ roster.keys = (drawMany config.n.toNat rng).1 := by
  have haddressable : checkLength config.n.toNat Roster.keyWidth = .ok () := if_pos (decide_eq_true hn)
  have hgroup : ∀ seeds, ∃ group : Group G, (⟨(drawMany config.n.toNat rng).1, seeds⟩ : Roster F).group config =
      .ok group := by
    intro seeds
    simp only [Roster.group, Group.create, hconfig, bind, Except.bind, List.length_map, Shareholder.length_drawMany,
      ne_eq, not_true_eq_false, ↓reduceIte]
    exact ⟨_, rfl⟩
  obtain ⟨group, hgroup⟩ := hgroup (Roster.drawSeeds config.n.toNat (drawMany config.n.toNat rng : List F × Random).2).1
  exact ⟨_, group, bind_eq_ok_iff.2 ⟨(), haddressable, rfl⟩, hgroup, rfl⟩

variable [Zero F]

/-- the key at a position is that of the index it is taken for -/
theorem key?_roster (hgroup : roster.group config = .ok group) (hi : i < UInt32.size) (hkeys : i < roster.keys.length) :
    group.key? (UInt32.ofNat i) = some (roster.keys.getD i 0 • (generator : G)) := by
  have hword : (UInt32.ofNat i).toNat = i := Nat.mod_eq_of_lt hi
  obtain ⟨-, -, rfl⟩ := create_eq_ok hgroup
  simp [Group.key?, hword, hkeys]

end

variable [Zero F] [Sampled F] [DecidableEq G]

/-- keys, group and shareholders, on an empty board -/
def gather (config : Config) (behaviors : List Behavior) (rng : Random) : Except Failure (Ceremony F G) := do
  let roster ← Roster.draw (F := F) config.n.toNat rng
  let group ← roster.group config
  let machines ← (List.range config.n.toNat).mapM fun i => roster.shareholder group (behaviors.getD i .honest) i
  return { config, net := .ofMachines .empty machines }

theorem start_eq (config : Config) (behaviors : List Behavior) (rng : Random) :
    (start config behaviors rng : Except Failure (Ceremony F G)) = config.validate >>= fun _ =>
      if config.n.toNat < behaviors.length then
        .error (.indexOutOfRange (UInt32.ofNat (behaviors.length - 1)) config.n.toNat)
      else gather config behaviors rng := by
  refine bind_congr fun _ => ?_
  dsimp only
  split_ifs <;> rfl

variable {c : Ceremony F G}

theorem start_ne_disagreement (matter : String) :
    (start config behaviors rng : Except Failure (Ceremony F G)) ≠ .error (.disagreement matter) := by
  rw [start_eq]
  refine bind_ne_error (config.validate_ne_disagreement matter) fun _ _ => ?_
  split_ifs
  · exact fun h => Failure.noConfusion (Except.error.inj h)
  · exact bind_ne_error (Roster.draw_ne_disagreement _ rng matter) fun roster _ =>
      bind_ne_error (Group.create_ne_disagreement _ config matter) fun group _ =>
        bind_ne_error (mapM_ne_error (fun i => Shareholder.create_ne_disagreement _ _ _ _ _ matter) _) fun _ _ =>
          pure_ne_error

/-- **What has started** has valid parameters, and its crew stands before an empty board. -/
theorem start_eq_ok (h : start config behaviors rng = .ok c) : config.validate = .ok () ∧
    behaviors.length ≤ config.n.toNat ∧ ∃ machines, Crew config behaviors machines ∧
      c = { config, net := .ofMachines .empty machines } := by
  rw [start_eq] at h
  obtain ⟨⟨⟩, hconfig, h⟩ := bind_eq_ok_iff.1 h
  split_ifs at h with hbehaviors
  obtain ⟨roster, -, h⟩ := bind_eq_ok_iff.1 h
  obtain ⟨group, hgroup, h⟩ := bind_eq_ok_iff.1 h
  obtain ⟨machines, hmachines, h⟩ := bind_eq_ok_iff.1 h
  obtain rfl := Except.ok.inj h
  refine ⟨hconfig, not_lt.1 hbehaviors, machines, ?_, rfl⟩
  have hmade : ∀ m ∈ machines, ∃ i, roster.shareholder group (behaviors.getD i .honest) i = .ok m := by
    intro m hm
    have hok : (.ok m : Except Failure (Shareholder F G)) ∈ machines.map .ok := List.mem_map_of_mem hm
    rw [← mapM_eq_ok.1 hmachines] at hok
    obtain ⟨i, -, hi⟩ := List.mem_map.1 hok
    exact ⟨i, hi⟩
  constructor
  · intro m hm
    obtain ⟨i, hi⟩ := hmade m hm
    exact (Shareholder.fresh_create hi).1
  · refine ⟨_, group, hgroup, ?_⟩
    intro m hm
    obtain ⟨i, hi⟩ := hmade m hm
    exact (Shareholder.fresh_create hi).2.2.2.1
  · exact map_eq_of_mapM hmachines fun i m hi => (Shareholder.fresh_create hi).2.1
  · exact map_eq_of_mapM hmachines fun i m hi => (Shareholder.fresh_create hi).2.2.2.2

/-! ## whether it starts -/

section

variable {roster : Roster F} {group : Group G} {i : Nat}

theorem exists_shareholder (hgroup : roster.group config = .ok group) (hi : i < UInt32.size)
    (hkeys : i < roster.keys.length) (behavior : Behavior) :
    ∃ s, roster.shareholder group behavior i = .ok s :=
  Shareholder.exists_create _ _ (validate_of_create hgroup) (key?_roster hgroup hi hkeys)

/-- the shareholder after `2 ^ 32` others is taken for the first of them -/
theorem shareholder_size (hgroup : roster.group config = .ok group) (hkeys : UInt32.size < roster.keys.length)
    (hne : roster.keys.getD UInt32.size 0 • (generator : G) ≠ roster.keys.getD 0 0 • generator) (behavior : Behavior) :
    roster.shareholder group behavior UInt32.size = .error (.privateKeyMismatch 0) := by
  have hkey := key?_roster hgroup (i := 0) (by decide) (Nat.zero_lt_of_lt hkeys)
  have hzero : UInt32.ofNat UInt32.size = UInt32.ofNat 0 := rfl
  rw [Roster.shareholder, hzero, Shareholder.create]
  simp only [validate_of_create hgroup, hkey, bind, Except.bind, if_pos hne]
  rfl

end

/-- **It does start**, if the parameters are valid, no behavior is too many, and the shareholders can be numbered. -/
theorem exists_start (hconfig : config.validate = .ok ()) (hbehaviors : behaviors.length ≤ config.n.toNat)
    (hn : config.n.toNat ≤ UInt32.size) (rng : Random) :
    ∃ c : Ceremony F G, start config behaviors rng = .ok c := by
  have hbytes : config.n.toNat * 32 < 2 ^ 63 := by
    have hsize : UInt32.size = 2 ^ 32 := rfl
    omega
  obtain ⟨roster, group, hroster, hgroup, hkeys⟩ := exists_roster (F := F) (G := G) hconfig hbytes rng
  obtain ⟨machines, hmachines⟩ : ∃ machines, (List.range config.n.toNat).mapM (fun i =>
      roster.shareholder group (behaviors.getD i .honest) i) = .ok machines := by
    refine exists_mapM fun i hi => exists_shareholder hgroup (lt_of_lt_of_le (List.mem_range.1 hi) hn) ?_ _
    rw [hkeys, Shareholder.length_drawMany]
    exact List.mem_range.1 hi
  refine ⟨{ config, net := .ofMachines .empty machines }, ?_⟩
  rw [start_eq]
  exact bind_eq_ok_iff.2 ⟨(), hconfig, (if_neg (not_lt.2 hbehaviors)).trans (bind_eq_ok_iff.2 ⟨roster, hroster,
    bind_eq_ok_iff.2 ⟨group, hgroup, bind_eq_ok_iff.2 ⟨machines, hmachines, rfl⟩⟩⟩)⟩

/-- **It does not start** with more shareholders than indices, unless the first that has no index of its own has the key of
the first. -/
theorem start_overfull (hconfig : config.validate = .ok ()) (hbehaviors : behaviors.length ≤ config.n.toNat)
    (hn : config.n.toNat * Roster.keyWidth < 2 ^ 63) (hsize : UInt32.size < config.n.toNat) (rng : Random)
    (hne : ((drawMany config.n.toNat rng).1 : List F).getD UInt32.size 0 • (generator : G) ≠
      ((drawMany config.n.toNat rng).1 : List F).getD 0 0 • generator) :
    (start config behaviors rng : Except Failure (Ceremony F G)) = .error (.privateKeyMismatch 0) := by
  obtain ⟨roster, group, hroster, hgroup, hkeys⟩ := exists_roster (F := F) (G := G) hconfig hn rng
  have hlength : roster.keys.length = config.n.toNat := by rw [hkeys, Shareholder.length_drawMany]
  rw [← hkeys] at hne
  rw [← hlength] at hsize
  have hbefore : ∀ i ∈ List.range UInt32.size,
      ∃ s, roster.shareholder group (behaviors.getD i .honest) i = .ok s := fun i hi =>
    exists_shareholder hgroup (List.mem_range.1 hi) ((List.mem_range.1 hi).trans hsize) _
  have hlast := shareholder_size hgroup hsize hne (behaviors.getD UInt32.size .honest)
  have hmachines : (List.range config.n.toNat).mapM (fun i =>
      roster.shareholder group (behaviors.getD i .honest) i) = .error (.privateKeyMismatch 0) := by
    obtain ⟨later, hlater⟩ := exists_range_eq hsize
    rw [← hlength, hlater]
    exact mapM_eq_error hbefore hlast later
  rw [start_eq, hconfig]
  simp only [bind, Except.bind, if_neg (not_lt.2 hbehaviors), gather, hroster, hgroup, hmachines]

end Ceremony

end

end DistributedKey
