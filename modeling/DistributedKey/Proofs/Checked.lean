/-
Guarded computations read backwards: what it takes for one to answer, and what it takes never to crash.

Each guard has a law for its answer (`…_eq_ok`) and one for its crash (`…_ne_crash`). A handler is a chain of guards,
so `simp` with the first kind turns "the handler answers" into the conjunction of what it has checked, and the second
kind leaves one bound for each table that it reads. A chain without a refusal in it `Answers` within those bounds.
-/
import Mathlib.Tactic
import DistributedKey.View

namespace DistributedKey

/-! ## any chain -/

section

variable {ε α β : Type} {e : ε} {x : Except ε α} {f : α → Except ε β}

theorem bind_eq_ok_iff {b : β} : (x >>= f) = .ok b ↔ ∃ a, x = .ok a ∧ f a = .ok b := by
  cases x with
  | error e => simp [bind, Except.bind]
  | ok a => simp [bind, Except.bind]

theorem bind_ne_error (hx : x ≠ .error e) (hf : ∀ a, x = .ok a → f a ≠ .error e) : (x >>= f) ≠ .error e := by
  cases x with
  | error e' => simpa [bind, Except.bind] using hx
  | ok a => exact hf a rfl

theorem pure_ne_error {a : α} : (pure a : Except ε α) ≠ .error e := by
  simp [pure, Except.pure]

end

namespace Checked

variable {α β : Type}

/-! ## answers -/

@[simp] theorem bind_eq_ok {x : Checked α} {f : α → Checked β} {b : β} :
    (x >>= f) = .ok b ↔ ∃ a, x = .ok a ∧ f a = .ok b := bind_eq_ok_iff

@[simp] theorem pure_eq_ok {a b : α} : (pure a : Checked α) = .ok b ↔ a = b := by
  simp [pure, Except.pure]

@[simp] theorem map_eq_ok {x : Checked α} {f : α → β} {b : β} : f <$> x = .ok b ↔ ∃ a, x = .ok a ∧ f a = b := by
  cases x with
  | error e => simp [Functor.map, Except.map]
  | ok a => simp [Functor.map, Except.map]

@[simp] theorem refuse_ne_ok {cause : Violation} {a : α} : (refuse cause : Checked α) ≠ .ok a := by
  simp [refuse]

@[simp] theorem require_eq_ok {p : Prop} [Decidable p] {cause : Violation} {u : Unit} :
    require p cause = .ok u ↔ p := by
  unfold require
  split_ifs with h <;> simp [h, refuse]

@[simp] theorem known_eq_ok {o : Option α} {cause : Violation} {a : α} : known o cause = .ok a ↔ o = some a := by
  cases o <;> simp [known, refuse]

@[simp] theorem present_eq_ok {o : Option α} {a : α} : present o = .ok a ↔ o = some a := by
  cases o <;> simp [present]

@[simp] theorem entry_eq_ok {table : List α} {i : Index} {a : α} :
    entry table i = .ok a ↔ table[i.toNat]? = some a := by
  simp [entry]

@[simp] theorem replace_eq_ok {table table' : List α} {i : Index} {a : α} :
    replace table i a = .ok table' ↔ i.toNat < table.length ∧ table.set i.toNat a = table' := by
  unfold replace
  split_ifs with h <;> simp [h]

@[simp] theorem minus_eq_ok {a b c : Nat} : minus a b = .ok c ↔ b ≤ a ∧ a - b = c := by
  unfold minus
  split_ifs with h <;> simp [h]

/-! ## no crash -/

theorem bind_ne_crash {x : Checked α} {f : α → Checked β} (hx : x ≠ .error .crash)
    (hf : ∀ a, x = .ok a → f a ≠ .error .crash) : (x >>= f) ≠ .error .crash := bind_ne_error hx hf

@[simp] theorem pure_ne_crash {a : α} : (pure a : Checked α) ≠ .error .crash := pure_ne_error

@[simp] theorem refuse_ne_crash {cause : Violation} : (refuse cause : Checked α) ≠ .error .crash := by
  simp [refuse]

@[simp] theorem require_ne_crash {p : Prop} [Decidable p] {cause : Violation} :
    require p cause ≠ .error .crash := by
  unfold require
  split_ifs <;> simp [refuse]

@[simp] theorem known_ne_crash {o : Option α} {cause : Violation} : known o cause ≠ .error .crash := by
  cases o <;> simp [known, refuse]

theorem present_ne_crash {o : Option α} (h : o.isSome) : present o ≠ .error .crash := by
  obtain ⟨a, rfl⟩ := Option.isSome_iff_exists.1 h
  simp [present]

theorem entry_ne_crash {table : List α} {i : Index} (h : i.toNat < table.length) :
    entry table i ≠ .error .crash :=
  present_ne_crash (by simp [h])

theorem replace_ne_crash {table : List α} {i : Index} {a : α} (h : i.toNat < table.length) :
    replace table i a ≠ .error .crash := by
  simp [replace, h]

theorem minus_ne_crash {a b : Nat} (h : b ≤ a) : minus a b ≠ .error .crash := by
  simp [minus, h]

/-! ## answers for sure -/

/-- neither refused nor crashed -/
def Answers (x : Checked α) : Prop := ∃ a, x = .ok a

theorem Answers.ne_crash {x : Checked α} (hx : Answers x) : x ≠ .error .crash := by
  obtain ⟨a, rfl⟩ := hx
  exact pure_ne_error

theorem Answers.bind {x : Checked α} {f : α → Checked β} (hx : Answers x) (hf : ∀ a, x = .ok a → Answers (f a)) :
    Answers (x >>= f) := by
  obtain ⟨a, ha⟩ := hx
  obtain ⟨b, hb⟩ := hf a ha
  exact ⟨b, bind_eq_ok.2 ⟨a, ha, hb⟩⟩

theorem answers_pure (a : α) : Answers (pure a : Checked α) := ⟨a, rfl⟩

theorem answers_present {o : Option α} (h : o.isSome) : Answers (present o) := by
  obtain ⟨a, rfl⟩ := Option.isSome_iff_exists.1 h
  exact ⟨a, rfl⟩

theorem answers_entry {table : List α} {i : Index} (h : i.toNat < table.length) : Answers (entry table i) :=
  answers_present (by simp [h])

theorem answers_replace {table : List α} {i : Index} (a : α) (h : i.toNat < table.length) :
    Answers (replace table i a) := ⟨_, replace_eq_ok.2 ⟨h, rfl⟩⟩

theorem answers_minus {a b : Nat} (h : b ≤ a) : Answers (minus a b) := ⟨_, minus_eq_ok.2 ⟨h, rfl⟩⟩

end Checked

end DistributedKey
