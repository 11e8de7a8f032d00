/-
Which shareholder behaves how, of all the ways to give the flags.

The flags are gone through once, and each fills the slot of its shareholder unless another behavior is there already. What
comes of it does not depend on their order: `Resolves` tells it by what the flags name alone.

- `Filled.assign_eq_ok_iff`: one flag, from the slots that the flags before it have filled.
- `foldlM_assign_eq_ok_iff`: hence all flags, whether they are taken and what they fill.
- `behaviors_resolved`: the behaviors of `n` shareholders, for three lists in any order and with any repetitions.
- `behaviors_unaddressable`: a list of `2 ^ 63` behaviors is refused, though nothing is wrong with the flags.
-/
import Mathlib.Tactic
import DistributedKey.Command
import DistributedKey.Proofs.Checked

namespace DistributedKey.RunOptions

/-! ## slots -/

/-- every flag names a shareholder that is there, and no two name one as different things -/
structure Compatible (faults : List (Index × Behavior)) (n : Nat) : Prop where
  lt : ∀ f ∈ faults, f.1.toNat < n
  agree : ∀ f ∈ faults, ∀ f' ∈ faults, f.1 = f'.1 → f.2 = f'.2

/-- the slots hold what the flags name, and `honest` where they name nobody -/
structure Filled (faults : List (Index × Behavior)) (n : Nat) (slots : List Behavior) : Prop where
  length : slots.length = n
  named : ∀ f ∈ faults, slots[f.1.toNat]? = some f.2
  honest : ∀ p < n, (∀ f ∈ faults, f.1.toNat ≠ p) → slots[p]? = some .honest

variable {faults : List (Index × Behavior)} {f : Index × Behavior} {n : Nat} {slots slots' : List Behavior}

theorem Filled.compatible (h : Filled faults n slots) : Compatible faults n where
  lt f hf := by
    obtain ⟨hlt, -⟩ := List.getElem?_eq_some_iff.1 (h.named f hf)
    exact h.length ▸ hlt
  agree f hf f' hf' heq := by
    have hnamed := h.named f hf
    rw [heq, h.named f' hf'] at hnamed
    exact (Option.some.inj hnamed).symm

/-- the slots are filled in one way only -/
theorem Filled.eq (h : Filled faults n slots) (h' : Filled faults n slots') : slots = slots' := by
  refine List.ext_getElem? fun p => ?_
  by_cases hp : p < n
  · by_cases hnamed : ∃ g ∈ faults, g.1.toNat = p
    · obtain ⟨g, hg, rfl⟩ := hnamed
      rw [h.named g hg, h'.named g hg]
    · push Not at hnamed
      rw [h.honest p hp hnamed, h'.honest p hp hnamed]
  · have hlen := h.length
    have hlen' := h'.length
    rw [List.getElem?_eq_none (by omega), List.getElem?_eq_none (by omega)]

theorem filled_nil (n : Nat) : Filled [] n (List.replicate n .honest) where
  length := List.length_replicate
  named f hf := absurd hf List.not_mem_nil
  honest p hp _ := by rw [List.getElem?_replicate, if_pos hp]

/-! ## one flag -/

theorem assign_eq_ok_iff : assign slots f = .ok slots' ↔
    ∃ old, slots[f.1.toNat]? = some old ∧ (old = .honest ∨ old = f.2) ∧ slots' = slots.set f.1.toNat f.2 := by
  cases hslot : slots[f.1.toNat]? with
  | none => simp [assign, hslot]
  | some old =>
    by_cases hfree : old = .honest ∨ old = f.2
    · have hno : ¬ (old ≠ .honest ∧ old ≠ f.2) := by tauto
      simp [assign, hslot, if_neg hno, hfree, eq_comm]
    · have hconflict : old ≠ .honest ∧ old ≠ f.2 := by tauto
      simp [assign, hslot, if_pos hconflict, hfree]

/-- a flag that is taken fills its slot and leaves the others -/
theorem Filled.set (h : Filled faults n slots) (hlt : f.1.toNat < n) (hagree : ∀ g ∈ faults, g.1 = f.1 → g.2 = f.2) :
    Filled (faults ++ [f]) n (slots.set f.1.toNat f.2) where
  length := by rw [List.length_set, h.length]
  named g hg := by
    have hlen := h.length
    rw [List.mem_append, List.mem_singleton] at hg
    rcases hg with hg | rfl
    · by_cases hindex : f.1 = g.1
      · rw [← hindex, List.getElem?_set_self (by omega), hagree g hg hindex.symm]
      · rw [List.getElem?_set_ne (mt UInt32.toNat_inj.1 hindex), h.named g hg]
    · rw [List.getElem?_set_self (by omega)]
  honest p hp hnamed := by
    rw [List.getElem?_set_ne (hnamed f List.mem_concat_self)]
    exact h.honest p hp fun g hg => hnamed g (List.mem_append_left _ hg)

/-- **One flag** is taken exactly if something fills the slots as it and those before it say, and then it does. -/
theorem Filled.assign_eq_ok_iff (h : Filled faults n slots) (hfaulty : ∀ g ∈ faults, g.2 ≠ .honest) :
    assign slots f = .ok slots' ↔ Filled (faults ++ [f]) n slots' := by
  rw [RunOptions.assign_eq_ok_iff]
  constructor
  · rintro ⟨old, hslot, hfree, rfl⟩
    obtain ⟨hlt, -⟩ := List.getElem?_eq_some_iff.1 hslot
    refine h.set (h.length ▸ hlt) fun g hg hindex => ?_
    have hsame : g.2 = old := Option.some.inj ((h.named g hg).symm.trans (hindex ▸ hslot))
    exact hsame.trans (hfree.resolve_left (hsame ▸ hfaulty g hg))
  · intro h'
    have hlt : f.1.toNat < n := h'.compatible.lt f List.mem_concat_self
    have hagree : ∀ g ∈ faults, g.1 = f.1 → g.2 = f.2 := fun g hg =>
      h'.compatible.agree g (List.mem_append_left _ hg) f List.mem_concat_self
    have hslots : slots' = slots.set f.1.toNat f.2 := h'.eq (h.set hlt hagree)
    by_cases hnamed : ∃ g ∈ faults, g.1 = f.1
    · obtain ⟨g, hg, hindex⟩ := hnamed
      exact ⟨g.2, hindex ▸ h.named g hg, Or.inr (hagree g hg hindex), hslots⟩
    · have hnobody : ∀ g ∈ faults, g.1.toNat ≠ f.1.toNat := fun g hg heq => hnamed ⟨g, hg, UInt32.toNat_inj.1 heq⟩
      exact ⟨.honest, h.honest _ hlt hnobody, Or.inl rfl, hslots⟩

/-! ## all flags -/

theorem Compatible.of_concat (h : Compatible (faults ++ [f]) n) : Compatible faults n where
  lt g hg := h.lt g (List.mem_append_left _ hg)
  agree g hg g' hg' := h.agree g (List.mem_append_left _ hg) g' (List.mem_append_left _ hg')

theorem exists_filled_iff : (∃ slots, Filled faults n slots) ↔ Compatible faults n := by
  refine ⟨fun ⟨_, h⟩ => h.compatible, fun h => ?_⟩
  induction faults using List.reverseRecOn with
  | nil => exact ⟨_, filled_nil n⟩
  | append_singleton faults f ih =>
    obtain ⟨slots, hslots⟩ := ih h.of_concat
    exact ⟨_, hslots.set (h.lt f List.mem_concat_self) fun g hg =>
      h.agree g (List.mem_append_left _ hg) f List.mem_concat_self⟩

/-- **All flags**, one after the other, fill the slots with what they name, or something is wrong with them. -/
theorem foldlM_assign_eq_ok_iff (hfaulty : ∀ f ∈ faults, f.2 ≠ .honest) :
    faults.foldlM assign (List.replicate n .honest) = .ok slots ↔ Filled faults n slots := by
  induction faults using List.reverseRecOn generalizing slots with
  | nil =>
    refine ⟨fun h => ?_, fun h => congrArg Except.ok ((filled_nil n).eq h)⟩
    obtain rfl := Except.ok.inj h
    exact filled_nil n
  | append_singleton faults f ih =>
    have hbefore : ∀ g ∈ faults, g.2 ≠ .honest := fun g hg => hfaulty g (List.mem_append_left _ hg)
    rw [List.foldlM_append, bind_eq_ok_iff]
    simp only [List.foldlM_cons, List.foldlM_nil, bind_pure, ih hbefore]
    constructor
    · rintro ⟨before, hfilled, hassign⟩
      exact (hfilled.assign_eq_ok_iff hbefore).1 hassign
    · intro h
      obtain ⟨before, hfilled⟩ := exists_filled_iff.2 h.compatible.of_concat
      exact ⟨before, hfilled, (hfilled.assign_eq_ok_iff hbefore).2 h⟩

/-! ## the three lists -/

variable {o o' : RunOptions} {behaviors : List Behavior}

/-- whom the flags for a behavior name -/
def named (o : RunOptions) : Behavior → List Index
  | .honest => []
  | .silent => o.silent
  | .omitBlinding => o.omitBlinding
  | .withholdContribution => o.withhold

/-- every index is that of a shareholder, and none is in two different lists -/
structure Resolvable (o : RunOptions) (n : Nat) : Prop where
  lt : ∀ b, ∀ i ∈ o.named b, i.toNat < n
  disjoint : ∀ b b', b ≠ b' → (o.named b).Disjoint (o.named b')

/-- a behavior for each shareholder: that of the list it is in, or `honest` if it is in none -/
structure Resolves (o : RunOptions) (n : Nat) (behaviors : List Behavior) : Prop where
  length : behaviors.length = n
  named : ∀ b, ∀ i ∈ o.named b, behaviors[i.toNat]? = some b
  honest : ∀ p < n, (∀ b, ∀ i ∈ o.named b, i.toNat ≠ p) → behaviors[p]? = some .honest

theorem mem_faults {i : Index} {b : Behavior} : (i, b) ∈ o.faults ↔ i ∈ o.named b := by
  cases b <;> simp [faults, named]

theorem faults_faulty : ∀ f ∈ o.faults, f.2 ≠ .honest := by
  rintro ⟨i, b⟩ hf rfl
  exact List.not_mem_nil (mem_faults.1 hf)

theorem forall_faults {P : Index → Behavior → Prop} : (∀ f ∈ o.faults, P f.1 f.2) ↔ ∀ b, ∀ i ∈ o.named b, P i b :=
  ⟨fun h b i hi => h (i, b) (mem_faults.2 hi), fun h f hf => h f.2 f.1 (mem_faults.1 hf)⟩

theorem filled_faults_iff : Filled o.faults n behaviors ↔ o.Resolves n behaviors := by
  constructor
  · intro h
    exact ⟨h.length, forall_faults.1 h.named, fun p hp hnobody => h.honest p hp (forall_faults.2 hnobody)⟩
  · intro h
    exact ⟨h.length, forall_faults.2 h.named, fun p hp hnobody => h.honest p hp (forall_faults.1 hnobody)⟩

theorem compatible_faults_iff : Compatible o.faults n ↔ o.Resolvable n := by
  constructor
  · intro h
    refine ⟨forall_faults.1 h.lt, fun b b' hne i hi hi' => hne ?_⟩
    exact h.agree (i, b) (mem_faults.2 hi) (i, b') (mem_faults.2 hi') rfl
  · intro h
    refine ⟨forall_faults.2 h.lt, fun f hf f' hf' hindex => ?_⟩
    by_contra hne
    exact h.disjoint f.2 f'.2 hne (mem_faults.1 hf) (hindex ▸ mem_faults.1 hf')

theorem checkLength_eq_ok_iff (count width : Nat) : checkLength count width = .ok () ↔ count * width < 2 ^ 63 := by
  have hroom : Bytes.addressable count width = true ↔ count * width < 2 ^ 63 := decide_eq_true_iff
  unfold checkLength
  split_ifs with h
  · exact iff_of_true rfl (hroom.1 h)
  · exact iff_of_false (fun hok => by cases hok) (mt hroom.2 h)

theorem mapError_eq_ok_iff {ε ε' α : Type} {x : Except ε α} {g : ε → ε'} {a : α} : x.mapError g = .ok a ↔ x = .ok a := by
  cases x <;> simp [Except.mapError]

theorem behaviors_eq_ok_iff : o.behaviors n = .ok behaviors ↔ n < 2 ^ 63 ∧ o.Resolves n behaviors := by
  have hlength : (checkLength n 1).mapError .failed = (.ok () : Except CommandError Unit) ↔ n < 2 ^ 63 := by
    rw [mapError_eq_ok_iff, checkLength_eq_ok_iff, Nat.mul_one]
  rw [RunOptions.behaviors, bind_eq_ok_iff, ← filled_faults_iff, ← foldlM_assign_eq_ok_iff faults_faulty, ← hlength]
  exact ⟨fun ⟨_, hroom, hfold⟩ => ⟨hroom, hfold⟩, fun ⟨hroom, hfold⟩ => ⟨(), hroom, hfold⟩⟩

/-- **The flags are resolved exactly.** A list of behaviors comes of them if and only if it can be addressed, every index
is that of a shareholder, and none is in two different lists. It then has `n` entries, and each is the behavior of the list
that its index is in, or `honest`. So neither order nor repetition within a list matters for it. -/
theorem behaviors_resolved (o : RunOptions) (n : Nat) :
    ((∃ behaviors, o.behaviors n = .ok behaviors) ↔ n < 2 ^ 63 ∧ o.Resolvable n) ∧
    (∀ behaviors, o.behaviors n = .ok behaviors → o.Resolves n behaviors) ∧
    ∀ o' : RunOptions, (∀ b i, i ∈ o'.named b ↔ i ∈ o.named b) →
      (o'.behaviors n).toOption = (o.behaviors n).toOption := by
  refine ⟨?_, fun behaviors h => (behaviors_eq_ok_iff.1 h).2, fun o' hsame => ?_⟩
  · simp only [behaviors_eq_ok_iff, exists_and_left, ← filled_faults_iff, exists_filled_iff, compatible_faults_iff]
  · have hresolves : ∀ behaviors, o'.Resolves n behaviors ↔ o.Resolves n behaviors := fun behaviors =>
      ⟨fun ⟨hlen, hnamed, hhonest⟩ => ⟨hlen, by simpa only [hsame] using hnamed, by simpa only [hsame] using hhonest⟩,
        fun ⟨hlen, hnamed, hhonest⟩ => ⟨hlen, by simpa only [hsame] using hnamed, by simpa only [hsame] using hhonest⟩⟩
    refine Option.ext fun behaviors => ?_
    have htoOption : ∀ r : Except CommandError (List Behavior), r.toOption = some behaviors ↔ r = .ok behaviors := by
      intro r
      cases r <;> simp [Except.toOption]
    rw [htoOption, htoOption, behaviors_eq_ok_iff, behaviors_eq_ok_iff, hresolves]

/-- four shareholders, of which `1` is named twice for the one list and `3` for the other, in either order -/
theorem behaviors_resolved_four :
    let expected : List Behavior := [.honest, .omitBlinding, .honest, .silent]
    ({ silent := [3], omitBlinding := [1, 1] } : RunOptions).behaviors 4 = .ok expected ∧
    ({ silent := [3, 3], omitBlinding := [1] } : RunOptions).behaviors 4 = .ok expected := by
  intro expected
  have honce : ({ silent := [3], omitBlinding := [1, 1] } : RunOptions).behaviors 4 = .ok expected := rfl
  obtain ⟨-, -, hsame⟩ := behaviors_resolved { silent := [3], omitBlinding := [1, 1] } 4
  have hlists : ∀ b i, i ∈ ({ silent := [3, 3], omitBlinding := [1] } : RunOptions).named b ↔
      i ∈ ({ silent := [3], omitBlinding := [1, 1] } : RunOptions).named b := by
    intro b i
    cases b <;> simp [named]
  have hagain := hsame _ hlists
  rw [honce] at hagain
  cases htwice : ({ silent := [3, 3], omitBlinding := [1] } : RunOptions).behaviors 4 with
  | error e => rw [htwice] at hagain; cases hagain
  | ok behaviors =>
    rw [htwice] at hagain
    exact ⟨honce, congrArg Except.ok (Option.some.inj hagain)⟩

/-- without any flag, nobody of `2 ^ 63` shareholders is given a behavior -/
theorem behaviors_unaddressable : ({} : RunOptions).Resolvable (2 ^ 63) ∧
    ({} : RunOptions).behaviors (2 ^ 63) = .error (.failed (.tooLong (2 ^ 63))) := by
  refine ⟨⟨?_, ?_⟩, rfl⟩
  · intro b i hi
    cases b <;> cases hi
  · intro b b' _ i hi
    cases b <;> cases hi

end DistributedKey.RunOptions
